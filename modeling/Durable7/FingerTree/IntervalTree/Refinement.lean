import Durable7.FingerTree.IntervalTree.Operations

/-!
# Interval trees as lists

Each edit and each query of one tree against the list of its intervals in the order of low ends.
-/

namespace Durable7.FingerTree.IntervalTree

open Foundation List Measured.ValidTree Std.TransCmp Std.OrientedCmp Nat
open Measured (foldMeasure)

variable {a : Type} [Ord a] [Std.TransOrd a]

/-! ## Measures -/

theorem foldMeasure_total (entries : List (IntervalEntry a)) :
    (foldMeasure entries : IntervalMeasure a).total = (entries.map fun _ => 1).sum := by
  induction entries with
  | nil => rfl
  | cons entry entries ih =>
      rw [Measured.foldMeasure_cons, map_cons, sum_cons, ← ih]
      rfl

theorem foldMeasure_lastLow (front : List (IntervalEntry a)) (entry : IntervalEntry a) :
    (foldMeasure (front ++ [entry]) : IntervalMeasure a).lastLow = some entry.getInterval.low := by
  rw [Measured.foldMeasure_append, Measured.foldMeasure_singleton]
  rfl

theorem any_maxMaybe (target : a) (left right : Option a) :
    ((maxMaybe left right).any fun maximum => compare maximum target != .lt) =
      ((left.any fun maximum => compare maximum target != .lt) ||
        right.any fun maximum => compare maximum target != .lt) := by
  cases left with
  | none => rfl
  | some left =>
      cases right with
      | none => exact (Bool.or_false _).symm
      | some right =>
          rw [maxMaybe, Option.any_some, Option.any_some, Option.any_some, Bool.eq_iff_iff,
            Bool.or_eq_true, bne_iff_ne, bne_iff_ne, bne_iff_ne, ne_lt_iff, ne_lt_iff, ne_lt_iff,
            isLE_max]

theorem foldMeasure_reaches (probe : Interval a) (entries : List (IntervalEntry a)) :
    reachesProbe probe (foldMeasure entries) =
      entries.any fun entry => (compare probe.low entry.getInterval.high).isLE := by
  induction entries with
  | nil => rfl
  | cons entry entries ih =>
      have hentry : (compare entry.getInterval.high probe.low != .lt) =
          (compare probe.low entry.getInterval.high).isLE := by
        rw [Bool.eq_iff_iff, bne_iff_ne, ne_lt_iff]
      rw [Measured.foldMeasure_cons, any_cons, ← ih, ← hentry]
      exact any_maxMaybe probe.low (some entry.getInterval.high) _

theorem measure_total (tree : EntryTree a) : tree.measure.total = (treeList tree).length := by
  rw [tree.measure_eq, foldMeasure_total, map_const', sum_replicate_nat, mul_one,
    treeList, length_map]

theorem count_eq (tree : IntervalTree a) : count tree = (toList tree).length := measure_total _

theorem null_iff (tree : IntervalTree a) : null tree = true ↔ toList tree = [] := by
  rw [null, tree.values.null_iff, toList, treeList, map_eq_nil_iff]

theorem treeList_empty : treeList (.empty : EntryTree a) = [] := by
  rw [treeList, toList_empty]
  rfl

theorem treeList_cons (entry : IntervalEntry a) (tree : EntryTree a) :
    treeList (tree.cons entry) = entry.getInterval :: treeList tree := by
  rw [treeList, toList_cons]
  rfl

theorem treeList_snoc (tree : EntryTree a) (entry : IntervalEntry a) :
    treeList (tree.snoc entry) = treeList tree ++ [entry.getInterval] := by
  rw [treeList, toList_snoc, map_append]
  rfl

theorem treeList_append (left right : EntryTree a) :
    treeList (left.append right) = treeList left ++ treeList right := by
  rw [treeList, toList_append, map_append]
  rfl

theorem treeList_parts {tree left right : EntryTree a} {entry : IntervalEntry a}
    (h : tree.toList = left.toList ++ entry :: right.toList) :
    treeList tree = treeList left ++ entry.getInterval :: treeList right := by
  rw [treeList, h, map_append, map_cons]
  rfl

theorem treeList_of_viewL {tree rest : EntryTree a} {entry : IntervalEntry a}
    (h : tree.viewL = some (entry, rest)) :
    treeList tree = entry.getInterval :: treeList rest := by
  rcases tree.viewL_cases with ⟨hnone, -⟩ | ⟨_, _, hsome, hlist⟩
  · rw [h] at hnone
    cases hnone
  · rw [h] at hsome
    cases hsome
    rw [treeList, hlist]
    rfl

theorem treeList_of_none {tree : EntryTree a} (h : tree.viewL = none) : treeList tree = [] := by
  rcases tree.viewL_cases with ⟨-, hlist⟩ | ⟨_, _, hsome, -⟩
  · rw [treeList, hlist]
    rfl
  · rw [h] at hsome
    cases hsome

variable {values : EntryTree a} {tree : IntervalTree a}

theorem splitLowerBound_spec (h : Ascending (treeList values)) (target : a) :
    treeList (splitLowerBound target values).1 =
        below compare Interval.low target (treeList values) ∧
      treeList (splitLowerBound target values).2 =
        atLeast compare Interval.low target (treeList values) := by
  have hmono : values.toList.Pairwise fun before after =>
      (compare before.getInterval.low target != .lt) = true →
        (compare after.getInterval.low target != .lt) = true := by
    refine (pairwise_map.mp h).imp ?_
    intro before after hle hbefore
    rw [bne_iff_ne, ne_lt_iff] at hbefore ⊢
    exact isLE_trans hbefore hle
  have hlast : ∀ front entry, atOrAbove target (foldMeasure (front ++ [entry])) =
      (compare (IntervalEntry.getInterval entry).low target != .lt) := by
    intro front entry
    rw [atOrAbove, foldMeasure_lastLow]
    rfl
  unfold splitLowerBound
  rcases split_last hlast rfl values hmono with ⟨hsplit, hnone⟩ |
    ⟨left, entry, right, hsplit, hlist, hleft, hentry, hright⟩
  · rw [hsplit]
    have hfront : ∀ item ∈ treeList values, compare item.low target = .lt := by
      intro item hitem
      obtain ⟨entry, hentry, rfl⟩ := mem_map.mp hitem
      exact bne_eq_false_iff_eq.mp (hnone entry hentry)
    obtain ⟨hbelow, hatLeast⟩ := cut_eq hfront (forall_mem_nil _)
    rw [append_nil] at hbelow hatLeast
    rw [hbelow, hatLeast]
    exact ⟨rfl, treeList_empty⟩
  · rw [hsplit]
    dsimp only
    have hfront : ∀ item ∈ treeList left, compare item.low target = .lt := by
      intro item hitem
      obtain ⟨other, hother, rfl⟩ := mem_map.mp hitem
      exact bne_eq_false_iff_eq.mp (hleft other hother)
    have hback : ∀ item ∈ entry.getInterval :: treeList right, compare item.low target ≠ .lt := by
      rw [forall_mem_cons]
      refine ⟨bne_iff_ne.mp hentry, fun item hitem => ?_⟩
      obtain ⟨other, hother, rfl⟩ := mem_map.mp hitem
      exact bne_iff_ne.mp (hright other hother)
    obtain ⟨hbelow, hatLeast⟩ := cut_eq hfront hback
    rw [treeList_parts hlist, hbelow, hatLeast, treeList_cons]
    exact ⟨rfl, rfl⟩

theorem below_append_atLeast (h : Ascending (treeList values)) (target : a) :
    below compare Interval.low target (treeList values) ++
      atLeast compare Interval.low target (treeList values) = treeList values := by
  obtain ⟨hbelow, hatLeast⟩ := splitLowerBound_spec h target
  rw [← hbelow, ← hatLeast, splitLowerBound]
  rcases values.split_cases (atOrAbove target) with ⟨left, entry, right, hsplit, hflips⟩ |
    ⟨hsplit, -⟩
  · rw [hsplit]
    dsimp only
    rw [treeList_cons, treeList_parts hflips.values_eq]
  · rw [hsplit]
    dsimp only
    rw [treeList_empty, append_nil]

theorem toList_insert (h : Ascending (toList tree)) {interval : Interval a}
    (hproper : Proper interval) :
    ∃ next, insert interval tree = .ok next ∧
      toList next = ListModel.insert interval (toList tree) := by
  have hvalid : ¬ compare interval.low interval.high = .gt := by
    intro hgt
    rw [Proper, hgt] at hproper
    cases hproper
  obtain ⟨hbelow, hatLeast⟩ := splitLowerBound_spec h interval.low
  refine ⟨_, if_neg hvalid, ?_⟩
  rw [toList, treeList_append, treeList_cons, hbelow, hatLeast]
  rfl

theorem insert_improper {interval : Interval a} (himproper : ¬ Proper interval) :
    insert interval tree = .error "Durable7.FingerTree.IntervalTree.insert: invalid interval" := by
  refine if_pos ?_
  rw [Proper, not_isLE, ← Std.OrientedCmp.gt_iff_lt] at himproper
  exact himproper

variable {items : List (Interval a)} {target : Interval a}

theorem notSame_of_low {item : Interval a} (h : Ascending (item :: items))
    (hlow : (compare target.low item.low).isLE) (hne : compare item.low target.low ≠ .eq) :
    ∀ other ∈ item :: items, sameInterval other target = false := by
  intro other hother
  have hle : (compare item.low other.low).isLE := by
    rcases mem_cons.mp hother with rfl | hother
    · exact Std.ReflCmp.isLE_rfl
    · exact (pairwise_cons.mp h).1 other hother
  have hless : compare target.low item.low = .lt := by
    cases hcompare : compare target.low item.low with
    | lt => rfl
    | eq => exact absurd (eq_symm hcompare) hne
    | gt =>
        rw [hcompare] at hlow
        cases hlow
  rw [sameInterval, gt_of_lt (lt_of_lt_of_isLE hless hle)]
  rfl

theorem deleteFromEqualRun_spec (skipped candidates : EntryTree a)
    (h : Ascending (treeList candidates))
    (hlow : ∀ item ∈ treeList candidates, (compare target.low item.low).isLE) :
    (deleteFromEqualRun target skipped candidates = none ∧
      ∀ item ∈ treeList candidates, sameInterval item target = false) ∨
    ∃ remaining, deleteFromEqualRun target skipped candidates = some remaining ∧
      treeList remaining =
        treeList skipped ++ (treeList candidates).eraseP fun item => sameInterval item target := by
  fun_induction deleteFromEqualRun target skipped candidates with
  | case1 skipped candidates hview =>
      rw [treeList_of_none hview]
      exact .inl ⟨rfl, forall_mem_nil _⟩
  | case2 skipped candidates entry rest hview hne =>
      rw [treeList_of_viewL hview] at h hlow ⊢
      exact .inl ⟨rfl, notSame_of_low h (hlow _ mem_cons_self) hne⟩
  | case3 skipped candidates entry rest hview heq hsame =>
      rw [treeList_of_viewL hview,
        eraseP_cons_of_pos (p := fun item => sameInterval item target) hsame]
      exact .inr ⟨_, rfl, treeList_append _ _⟩
  | case4 skipped candidates entry rest hview heq hdifferent ih =>
      rw [treeList_of_viewL hview] at h hlow ⊢
      rw [forall_mem_cons] at hlow
      rw [eraseP_cons_of_neg (p := fun item => sameInterval item target) hdifferent]
      rcases ih (pairwise_cons.mp h).2 hlow.2 with ⟨hnone, hmissing⟩ | ⟨remaining, hsome, hlist⟩
      · exact .inl ⟨hnone, forall_mem_cons.mpr ⟨eq_false_of_ne_true hdifferent, hmissing⟩⟩
      · refine .inr ⟨remaining, hsome, ?_⟩
        rw [hlist, treeList_snoc, append_assoc]
        rfl

theorem containsInEqualRun_eq (candidates : EntryTree a) (h : Ascending (treeList candidates))
    (hlow : ∀ item ∈ treeList candidates, (compare target.low item.low).isLE) :
    containsInEqualRun target candidates =
      (treeList candidates).any fun item => sameInterval item target := by
  fun_induction containsInEqualRun target candidates with
  | case1 candidates hview =>
      rw [treeList_of_none hview]
      rfl
  | case2 candidates entry rest hview hne =>
      rw [treeList_of_viewL hview] at h hlow ⊢
      rw [eq_comm, any_eq_false]
      intro item hitem
      rw [notSame_of_low h (hlow _ mem_cons_self) hne item hitem]
      decide
  | case3 candidates entry rest hview heq hsame =>
      rw [treeList_of_viewL hview, any_cons, hsame]
      rfl
  | case4 candidates entry rest hview heq hdifferent ih =>
      rw [treeList_of_viewL hview] at h hlow ⊢
      rw [forall_mem_cons] at hlow
      rw [any_cons, eq_false_of_ne_true hdifferent, Bool.false_or]
      exact ih (pairwise_cons.mp h).2 hlow.2

omit [Std.TransOrd a] in
theorem below_notSame :
    ∀ item ∈ below compare Interval.low target.low items, ¬ sameInterval item target = true := by
  intro item hitem
  rw [sameInterval, (mem_below.mp hitem).2]
  exact Bool.false_ne_true

theorem candidates_low {target : a} :
    ∀ item ∈ atLeast compare Interval.low target items, (compare target item.low).isLE := by
  intro item hitem
  have hle := (mem_filter.mp hitem).2
  rwa [bne_iff_ne, ne_lt_iff] at hle

theorem toList_delete (h : Ascending (toList tree)) (interval : Interval a) :
    toList (delete interval tree) = ListModel.delete interval (toList tree) := by
  obtain ⟨hbelow, hatLeast⟩ := splitLowerBound_spec h interval.low
  have hcut := below_append_atLeast h interval.low
  have hfront : (toList tree).eraseP (fun item => sameInterval item interval) =
      below compare Interval.low interval.low (toList tree) ++
        (atLeast compare Interval.low interval.low (toList tree)).eraseP
          fun item => sameInterval item interval := by
    conv_lhs => rw [toList, ← hcut]
    exact eraseP_append_right _ below_notSame
  change _ = (toList tree).eraseP fun item => sameInterval item interval
  rw [hfront]
  unfold delete
  dsimp only
  rcases deleteFromEqualRun_spec .empty (splitLowerBound interval.low tree.values).2
    (by rw [hatLeast]; exact h.filter _) (by rw [hatLeast]; exact candidates_low) with
    ⟨hnone, hmissing⟩ | ⟨remaining, hsome, hlist⟩
  · rw [hatLeast] at hmissing
    rw [hnone, eraseP_of_forall_not fun item hitem => by rw [hmissing item hitem]; decide]
    exact hcut.symm
  · rw [hsome]
    dsimp only
    rw [toList, treeList_append, hbelow, hlist, hatLeast, treeList_empty]
    rfl

theorem contains_eq (h : Ascending (toList tree)) (interval : Interval a) :
    contains interval tree = (toList tree).any fun item => sameInterval item interval := by
  obtain ⟨-, hatLeast⟩ := splitLowerBound_spec h interval.low
  have hcut := below_append_atLeast h interval.low
  rw [contains, containsInEqualRun_eq _ (by rw [hatLeast]; exact h.filter _)
    (by rw [hatLeast]; exact candidates_low), hatLeast]
  conv_rhs => rw [toList, ← hcut]
  rw [any_append, any_eq_false.mpr below_notSame, Bool.false_or]

theorem nextOverlap_cases (h : Ascending (treeList values)) (probe : Interval a) :
    (nextOverlap probe values = none ∧ ListModel.overlapping probe (treeList values) = []) ∨
    ∃ found rest, nextOverlap probe values = some (found, rest) ∧
      Ascending (treeList rest) ∧
      ListModel.overlapping probe (treeList values) =
        found :: ListModel.overlapping probe (treeList rest) := by
  unfold nextOverlap
  rcases values.split_any (foldMeasure_reaches probe) with ⟨hsplit, hnone⟩ |
    ⟨left, candidate, right, hsplit, hlist, hleft, hreached⟩
  · rw [hsplit]
    refine .inl ⟨rfl, filter_eq_nil_iff.mpr fun item hitem => ?_⟩
    obtain ⟨entry, hentry, rfl⟩ := mem_map.mp hitem
    rw [meets, hnone entry hentry, Bool.and_false]
    decide
  · rw [hsplit]
    dsimp only
    have hparts := treeList_parts hlist
    rw [hparts] at h
    obtain ⟨hlow, hright⟩ := pairwise_cons.mp (pairwise_append.mp h).2.1
    have hmissed : ListModel.overlapping probe (treeList left) = [] := by
      refine filter_eq_nil_iff.mpr fun item hitem => ?_
      obtain ⟨entry, hentry, rfl⟩ := mem_map.mp hitem
      rw [meets, hleft entry hentry, Bool.and_false]
      decide
    have hoverlaps : ListModel.overlapping probe (treeList values) =
        ListModel.overlapping probe (candidate.getInterval :: treeList right) := by
      rw [hparts, ListModel.overlapping, filter_append]
      rw [ListModel.overlapping] at hmissed
      rw [hmissed]
      rfl
    rw [hoverlaps]
    split
    · rename_i hinside
      refine .inr ⟨_, right, rfl, hright, filter_cons_of_pos ?_⟩
      rw [meets, hinside, hreached]
      rfl
    · rename_i hbeyond
      refine .inl ⟨rfl, filter_eq_nil_iff.mpr fun item hitem hmeets => hbeyond ?_⟩
      rw [meets, Bool.and_eq_true] at hmeets
      rcases mem_cons.mp hitem with rfl | hitem
      · exact hmeets.1
      · exact isLE_trans (hlow item hitem) hmeets.1

theorem findOverlapsFrom_eq (probe : Interval a) (values : EntryTree a)
    (h : Ascending (treeList values)) :
    findOverlapsFrom probe values = ListModel.overlapping probe (treeList values) := by
  fun_induction findOverlapsFrom probe values with
  | case1 values hnext =>
      rcases nextOverlap_cases h probe with ⟨-, hnil⟩ | ⟨_, _, hsome, -⟩
      · exact hnil.symm
      · rw [hnext] at hsome
        cases hsome
  | case2 values found rest hnext ih =>
      rcases nextOverlap_cases h probe with ⟨hnone, -⟩ | ⟨_, _, hsome, hrest, hcons⟩
      · rw [hnext] at hnone
        cases hnone
      · rw [hnext] at hsome
        cases hsome
        rw [hcons, ih hrest]

theorem countOverlapsFrom_eq (probe : Interval a) (total : Nat) (values : EntryTree a)
    (h : Ascending (treeList values)) :
    countOverlapsFrom probe total values =
      total + (ListModel.overlapping probe (treeList values)).length := by
  fun_induction countOverlapsFrom probe total values with
  | case1 total values hnext =>
      rcases nextOverlap_cases h probe with ⟨-, hnil⟩ | ⟨_, _, hsome, -⟩
      · rw [hnil]
        rfl
      · rw [hnext] at hsome
        cases hsome
  | case2 total values found rest hnext ih =>
      rcases nextOverlap_cases h probe with ⟨hnone, -⟩ | ⟨_, _, hsome, hrest, hcons⟩
      · rw [hnext] at hnone
        cases hnone
      · rw [hnext] at hsome
        cases hsome
        rw [hcons, ih hrest, length_cons]
        omega

section

variable (h : Ascending (toList tree))
include h

theorem findOverlaps_eq (probe : Interval a) :
    findOverlaps probe tree = ListModel.overlapping probe (toList tree) :=
  findOverlapsFrom_eq probe _ h

theorem countOverlaps_eq (probe : Interval a) :
    countOverlaps probe tree = (ListModel.overlapping probe (toList tree)).length :=
  (countOverlapsFrom_eq probe 0 _ h).trans (zero_add _)

theorem findOverlap_eq (probe : Interval a) :
    findOverlap probe tree = (ListModel.overlapping probe (toList tree)).head? := by
  rw [findOverlap, toList]
  rcases nextOverlap_cases h probe with ⟨hnone, hnil⟩ | ⟨found, rest, hsome, -, hcons⟩
  · rw [hnone, hnil]
    rfl
  · rw [hsome, hcons]
    rfl

end

theorem splitRank_cases (position : Nat) (hposition : position < (toList tree).length) :
    ∃ left entry right,
      tree.values.split (fun measure => decide (measure.total > position)) =
        some (left, entry, right) ∧
      toList tree = treeList left ++ entry.getInterval :: treeList right ∧
      (treeList left).length = position := by
  rcases tree.values.split_weight foldMeasure_total position with ⟨-, hsum⟩ |
    ⟨left, entry, right, hsplit, hlist, hbefore, hafter⟩
  · rw [map_const', sum_replicate_nat, mul_one] at hsum
    rw [toList, treeList, length_map] at hposition
    omega
  · rw [map_const', sum_replicate_nat, mul_one] at hbefore hafter
    refine ⟨left, entry, right, hsplit, treeList_parts hlist, ?_⟩
    rw [treeList, length_map]
    omega

theorem index_eq (position : Int) (tree : IntervalTree a) :
    index position tree = if position < 0 then none else (toList tree)[position.toNat]? := by
  have hcount := count_eq tree
  unfold index
  by_cases hnegative : position < 0
  · rw [if_pos (.inl hnegative), if_pos hnegative]
  rw [if_neg hnegative]
  by_cases hhigh : position ≥ count tree
  · rw [if_pos (.inr hhigh), List.getElem?_eq_none (by omega)]
  obtain ⟨left, entry, right, hsplit, hlist, hlength⟩ :=
    @splitRank_cases _ _ _ tree position.toNat (by omega)
  rw [if_neg (by omega), locate, hsplit, hlist, ← hlength,
    List.getElem?_append_right (Nat.le_refl _), Nat.sub_self]
  rfl

theorem deleteAt_cases (position : Int) (tree : IntervalTree a) :
    (deleteAt position tree = none ∧ (position < 0 ∨ position ≥ (toList tree).length)) ∨
    ∃ next, deleteAt position tree = some next ∧
      ¬ (position < 0 ∨ position ≥ (toList tree).length) ∧
      toList next = (toList tree).eraseIdx position.toNat := by
  have hcount := count_eq tree
  unfold deleteAt
  by_cases hout : position < 0 ∨ position ≥ count tree
  · exact .inl ⟨if_pos hout, by omega⟩
  obtain ⟨left, entry, right, hsplit, hlist, hlength⟩ :=
    @splitRank_cases _ _ _ tree position.toNat (by omega)
  rw [if_neg hout, hsplit]
  refine .inr ⟨_, rfl, by omega, ?_⟩
  rw [toList, treeList_append, hlist, ← hlength, eraseIdx_append_of_length_le (le_refl _),
    Nat.sub_self]
  rfl

theorem lowerBoundRank_eq (h : Ascending (toList tree)) (target : a) :
    lowerBoundRank target tree = (below compare Interval.low target (toList tree)).length := by
  rw [lowerBoundRank, measure_total, (splitLowerBound_spec h target).1]
  rfl

theorem upperBoundFrom_eq (target : a) (tree : IntervalTree a) (position : Nat) :
    upperBoundFrom target tree position = position +
      (((toList tree).drop position).takeWhile fun item =>
        compare item.low target == .eq).length := by
  have hdrop : ∀ position : Nat, index position tree = ((toList tree).drop position).head? := by
    intro position
    rw [index_eq, if_neg (by omega), Int.toNat_natCast, List.head?_drop]
  fun_induction upperBoundFrom target tree position with
  | case1 position hindex =>
      rw [hdrop, List.head?_eq_none_iff] at hindex
      rw [hindex]
      rfl
  | case2 position interval hindex heq ih =>
      rw [hdrop, List.head?_eq_some_iff] at hindex
      obtain ⟨rest, hrest⟩ := hindex
      have hnext : (toList tree).drop (position + 1) = rest := by
        rw [← drop_drop, hrest]
        rfl
      rw [ih, hrest, hnext, takeWhile_cons_of_pos (by rw [heq]; rfl), length_cons]
      omega
  | case3 position interval hindex hne =>
      rw [hdrop, List.head?_eq_some_iff] at hindex
      obtain ⟨rest, hrest⟩ := hindex
      rw [hrest, takeWhile_cons_of_neg (by rw [beq_iff_eq]; exact hne)]
      rfl

theorem takeWhile_atLeast {target : a} (h : Ascending items)
    (hlow : ∀ item ∈ items, (compare target item.low).isLE) :
    (items.takeWhile fun item => compare item.low target == .eq) =
      items.filter fun item => compare item.low target != .gt := by
  induction items with
  | nil => rfl
  | cons item items ih =>
      rw [forall_mem_cons] at hlow
      obtain ⟨hle, hrest⟩ := pairwise_cons.mp h
      by_cases heq : compare item.low target = .eq
      · rw [takeWhile_cons_of_pos (by rw [heq]; rfl), ih hrest hlow.2,
          filter_cons_of_pos (by rw [heq]; rfl)]
      · have hless : compare target item.low = .lt := by
          cases hcompare : compare target item.low with
          | lt => rfl
          | eq => exact absurd (eq_symm hcompare) heq
          | gt =>
              rw [hcompare] at hlow
              exact absurd hlow.1 (by decide)
        rw [takeWhile_cons_of_neg (by rw [beq_iff_eq]; exact heq), eq_comm, filter_eq_nil_iff]
        intro other hother
        have hgreater : compare other.low target = .gt := by
          apply gt_of_lt
          rcases mem_cons.mp hother with rfl | hother
          · exact hless
          · exact lt_of_lt_of_isLE hless (hle other hother)
        rw [hgreater]
        decide

theorem upperBoundRank_eq (h : Ascending (toList tree)) (target : a) :
    upperBoundRank target tree = (atMost compare Interval.low target (toList tree)).length := by
  have hcut : below compare Interval.low target (toList tree) ++
      atLeast compare Interval.low target (toList tree) = toList tree :=
    below_append_atLeast h target
  have hsorted : Ascending (atLeast compare Interval.low target (toList tree)) := h.filter _
  have hbelow : ∀ item ∈ below compare Interval.low target (toList tree),
      (compare item.low target != .gt) = true := by
    intro item hitem
    rw [(mem_below.mp hitem).2]
    rfl
  have hdrop : (toList tree).drop (below compare Interval.low target (toList tree)).length =
      atLeast compare Interval.low target (toList tree) := by
    conv_lhs =>
      enter [2]
      rw [← hcut]
    exact drop_left
  have hall : (atMost compare Interval.low target (toList tree)).length =
      (below compare Interval.low target (toList tree)).length +
        ((atLeast compare Interval.low target (toList tree)).filter
          fun item => compare item.low target != .gt).length := by
    rw [← length_append]
    conv_lhs => rw [← hcut, atMost, filter_append, filter_eq_self.mpr hbelow]
  rw [upperBoundRank, upperBoundFrom_eq, lowerBoundRank_eq h, hdrop,
    takeWhile_atLeast hsorted candidates_low, hall]

end Durable7.FingerTree.IntervalTree
