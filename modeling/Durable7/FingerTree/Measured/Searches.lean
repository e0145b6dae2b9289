import Durable7.FingerTree.Measured.Cursors
import Durable7.Foundation.Cuts

/-!
# Searches in trees of sorted elements

A search by the last key of a prefix ends at the first element that satisfies it, and a search
by the weight of a prefix ends at the element that holds a position.
-/

namespace Durable7.FingerTree.Measured.ValidTree

open Foundation List

variable {v α β k : Type} [Monoid v] [Measured v α]

def viewL (tree : ValidTree v α) : Option (α × ValidTree v α) :=
  match hview : Measured.viewL tree.tree with
  | .emptyL => none
  | .consL first rest =>
      have hvalid := viewL_valid base_sound tree.valid
      some (first, ⟨rest, by
        rw [hview] at hvalid
        exact hvalid.2⟩)

theorem viewL_cases (tree : ValidTree v α) :
    (tree.viewL = none ∧ tree.toList = []) ∨
    ∃ first rest, tree.viewL = some (first, rest) ∧ tree.toList = first :: rest.toList := by
  have helements := elements_viewL tree.tree
  unfold viewL
  split
  · rename_i hview
    rw [hview] at helements
    refine .inl ⟨rfl, ?_⟩
    rw [toList, toList_eq, ← helements]
    rfl
  · rename_i first rest hview
    rw [hview] at helements
    refine .inr ⟨first, _, rfl, ?_⟩
    rw [toList, toList_eq, ← helements, toList, toList_eq]
    rfl

def viewR (tree : ValidTree v α) : Option (ValidTree v α × α) :=
  match hview : Measured.viewR tree.tree with
  | .emptyR => none
  | .snocR rest final =>
      have hvalid := viewR_valid base_sound tree.valid
      some (⟨rest, by
        rw [hview] at hvalid
        exact hvalid.2⟩, final)

theorem viewR_cases (tree : ValidTree v α) :
    (tree.viewR = none ∧ tree.toList = []) ∨
    ∃ rest final, tree.viewR = some (rest, final) ∧ tree.toList = rest.toList ++ [final] := by
  have helements := elements_viewR tree.tree
  unfold viewR
  split
  · rename_i hview
    rw [hview] at helements
    refine .inl ⟨rfl, ?_⟩
    rw [toList, toList_eq, ← helements]
    rfl
  · rename_i rest final hview
    rw [hview] at helements
    refine .inr ⟨_, final, rfl, ?_⟩
    rw [toList, toList_eq, ← helements, toList, toList_eq]
    rfl

theorem toList_of_viewL {tree rest : ValidTree v α} {first : α}
    (hview : tree.viewL = some (first, rest)) : tree.toList = first :: rest.toList := by
  rcases tree.viewL_cases with ⟨hnone, -⟩ | ⟨_, _, hsome, hlist⟩
  · rw [hview] at hnone
    cases hnone
  · rw [hview] at hsome
    cases hsome
    exact hlist

theorem viewL_shorter {tree rest : ValidTree v α} {first : α}
    (hview : tree.viewL = some (first, rest)) : rest.toList.length < tree.toList.length := by
  rw [toList_of_viewL hview]
  exact Nat.lt_succ_self _

variable {predicate : v → Bool}

theorem split_shorter {tree left right : ValidTree v α} {value : α}
    (hsplit : tree.split predicate = some (left, value, right)) :
    right.toList.length < tree.toList.length := by
  rcases tree.split_cases predicate with ⟨_, _, _, hsome, hflips⟩ | ⟨hnone, -⟩
  · rw [hsplit] at hsome
    cases hsome
    rw [hflips.values_eq, length_append, length_cons]
    omega
  · rw [hsplit] at hnone
    cases hnone

theorem split_any {accepts : α → Bool}
    (hany : ∀ values : List α, predicate (foldMeasure values) = values.any accepts)
    (tree : ValidTree v α) :
    (tree.split predicate = none ∧ ∀ value ∈ tree.toList, accepts value = false) ∨
    ∃ left value right, tree.split predicate = some (left, value, right) ∧
      tree.toList = left.toList ++ value :: right.toList ∧
      (∀ other ∈ left.toList, accepts other = false) ∧ accepts value = true := by
  have hnone : ∀ values : List α, predicate (foldMeasure values) = false →
      ∀ value ∈ values, accepts value = false := by
    intro values hfalse value hvalue
    rw [hany, any_eq_false] at hfalse
    exact Bool.not_eq_true _ ▸ hfalse value hvalue
  rcases tree.split_cases predicate with ⟨left, value, right, hsplit, hflips⟩ | ⟨hsplit, hmissed⟩
  · have hbefore := hnone _ (hflips.before (hany []))
    have hreached := hflips.reached
    rw [← foldMeasure_singleton value, ← foldMeasure_append, hany, any_append,
      any_eq_false.mpr fun other hother => by rw [hbefore other hother]; decide,
      Bool.false_or] at hreached
    refine .inr ⟨left, value, right, hsplit, hflips.values_eq, hbefore, ?_⟩
    simpa using hreached
  · refine .inl ⟨hsplit, ?_⟩
    rcases hmissed with hnil | hwhole
    · rw [hnil]
      exact forall_mem_nil _
    · exact hnone _ hwhole

/-- A predicate that looks at the last element of a prefix, on elements that once satisfy it for
good. -/
theorem split_last {accepts : α → Bool}
    (hlast : ∀ front value, predicate (foldMeasure (front ++ [value])) = accepts value)
    (hone : predicate 1 = false) (tree : ValidTree v α)
    (hmono : tree.toList.Pairwise fun before after =>
      accepts before = true → accepts after = true) :
    (tree.split predicate = none ∧ ∀ value ∈ tree.toList, accepts value = false) ∨
    ∃ left value right, tree.split predicate = some (left, value, right) ∧
      tree.toList = left.toList ++ value :: right.toList ∧
      (∀ other ∈ left.toList, accepts other = false) ∧ accepts value = true ∧
      ∀ other ∈ right.toList, accepts other = true := by
  have hmissed : ∀ {values : List α},
      values.Pairwise (fun before after => accepts before = true → accepts after = true) →
      predicate (foldMeasure values) = false → ∀ value ∈ values, accepts value = false := by
    intro values hvalues hfalse value hmem
    rcases eq_nil_or_concat' values with rfl | ⟨front, last, rfl⟩
    · cases hmem
    · rw [hlast] at hfalse
      rcases mem_append.mp hmem with hmem | hmem
      · apply eq_false_of_ne_true
        intro htrue
        have hafter := (pairwise_append.mp hvalues).2.2 value hmem last mem_cons_self
        rw [hafter htrue] at hfalse
        cases hfalse
      · rw [mem_singleton.mp hmem]
        exact hfalse
  rcases tree.split_cases predicate with ⟨left, value, right, hsplit, hflips⟩ | ⟨hsplit, hnone⟩
  · have hreached := hflips.reached
    rw [← foldMeasure_singleton value, ← foldMeasure_append, hlast] at hreached
    rw [hflips.values_eq, pairwise_append, pairwise_cons] at hmono
    exact .inr ⟨left, value, right, hsplit, hflips.values_eq,
      hmissed hmono.1 (hflips.before hone), hreached,
      fun other hother => hmono.2.1.1 other hother hreached⟩
  · refine .inl ⟨hsplit, ?_⟩
    rcases hnone with hnil | hwhole
    · rw [hnil]
      exact forall_mem_nil _
    · exact hmissed hmono hwhole

theorem split_weight {weight : α → Nat} {total : v → Nat}
    (htotal : ∀ values : List α, total (foldMeasure values) = (values.map weight).sum)
    (tree : ValidTree v α) (position : Nat) :
    (tree.split (fun measure => decide (total measure > position)) = none ∧
      (tree.toList.map weight).sum ≤ position) ∨
    ∃ left value right,
      tree.split (fun measure => decide (total measure > position)) = some (left, value, right) ∧
      tree.toList = left.toList ++ value :: right.toList ∧
      (left.toList.map weight).sum ≤ position ∧
      position < (left.toList.map weight).sum + weight value := by
  have hone : total (1 : v) = 0 := htotal []
  rcases tree.split_cases fun measure => decide (total measure > position) with
    ⟨left, value, right, hsplit, hflips⟩ | ⟨hsplit, hnone⟩
  · have hreached := hflips.reached
    have hbefore := hflips.before (decide_eq_false (by omega))
    rw [← foldMeasure_singleton value, ← foldMeasure_append, decide_eq_true_iff, htotal,
      map_append, sum_append, map_singleton, sum_singleton] at hreached
    rw [decide_eq_false_iff_not, htotal] at hbefore
    exact .inr ⟨left, value, right, hsplit, hflips.values_eq, by omega, hreached⟩
  · refine .inl ⟨hsplit, ?_⟩
    rcases hnone with hnil | hwhole
    · rw [hnil]
      exact Nat.zero_le _
    · rw [decide_eq_false_iff_not, htotal] at hwhole
      omega

section Keyed

variable [Ord k] [Std.TransOrd k] {shown : α → β} {key : β → k} {lastKey : v → Option k}
  (hlast : ∀ values : List α, lastKey (foldMeasure values) = (values.map shown).getLast?.map key)
  {tree : ValidTree v α} (hsorted : StrictlySorted compare key (tree.toList.map shown))

include hlast

omit [Std.TransOrd k] in
/-- A test of the last key looks at the last element only. -/
theorem lastKey_accepts {predicate : v → Bool} {target : k} (accepts : Ordering → Bool)
    (hpredicate : ∀ measure, predicate measure =
      (lastKey measure).any fun last => accepts (compare last target)) :
    predicate 1 = false ∧ ∀ front value, predicate (foldMeasure (front ++ [value])) =
      accepts (compare (key (shown value)) target) := by
  constructor
  · have hnil := hlast []
    rw [foldMeasure_nil] at hnil
    rw [hpredicate, hnil]
    rfl
  · intro front value
    rw [hpredicate, hlast, map_append, map_singleton, List.getLast?_concat]
    rfl

include hsorted

theorem split_atLeast {predicate : v → Bool} {target : k}
    (hpredicate : ∀ measure, predicate measure =
      (lastKey measure).any fun last => compare last target != .lt) :
    (tree.split predicate = none ∧ findKey compare key target (tree.toList.map shown) = none ∧
      below compare key target (tree.toList.map shown) = tree.toList.map shown ∧
      above compare key target (tree.toList.map shown) = []) ∨
    ∃ left value right, tree.split predicate = some (left, value, right) ∧
      tree.toList = left.toList ++ value :: right.toList ∧
      below compare key target (tree.toList.map shown) = left.toList.map shown ∧
      ((compare (key (shown value)) target = .eq ∧
        findKey compare key target (tree.toList.map shown) = some (shown value) ∧
        above compare key target (tree.toList.map shown) = right.toList.map shown) ∨
      (compare (key (shown value)) target = .gt ∧
        findKey compare key target (tree.toList.map shown) = none ∧
        above compare key target (tree.toList.map shown) =
          shown value :: right.toList.map shown)) := by
  have hmono : tree.toList.Pairwise fun before after =>
      (compare (key (shown before)) target != .lt) = true →
        (compare (key (shown after)) target != .lt) = true := by
    refine (pairwise_map.mp hsorted).imp ?_
    intro before after hlt hbefore
    rw [bne_iff_ne] at hbefore ⊢
    exact fun hafter => hbefore (Std.TransCmp.lt_trans hlt hafter)
  obtain ⟨hone, hprefix⟩ := lastKey_accepts hlast (· != .lt) hpredicate
  rcases split_last hprefix hone tree hmono with ⟨hsplit, hnone⟩ |
    ⟨left, value, right, hsplit, hlist, hleft, hvalue, -⟩
  · have hbelow : ∀ item ∈ tree.toList.map shown, compare (key item) target = .lt := by
      intro item hitem
      obtain ⟨value, hvalue, rfl⟩ := mem_map.mp hitem
      have hfalse := hnone value hvalue
      rwa [bne_eq_false_iff_eq] at hfalse
    obtain ⟨hfront, hfind, hback⟩ := @cut_gap _ _ compare key target _ [] hbelow (by simp)
    rw [append_nil] at hfront hfind hback
    exact .inl ⟨hsplit, hfind, hfront, hback⟩
  · right
    have hmapped : tree.toList.map shown =
        left.toList.map shown ++ shown value :: right.toList.map shown := by
      rw [hlist, map_append, map_cons]
    have hbelow : ∀ item ∈ left.toList.map shown, compare (key item) target = .lt := by
      intro item hitem
      obtain ⟨other, hother, rfl⟩ := mem_map.mp hitem
      have hfalse := hleft other hother
      rwa [bne_eq_false_iff_eq] at hfalse
    rw [hmapped, StrictlySorted, pairwise_append, pairwise_cons] at hsorted
    have hright : ∀ item ∈ right.toList.map shown, compare (key item) target = .gt := by
      intro item hitem
      rw [bne_iff_ne] at hvalue
      have hle : (compare target (key (shown value))).isLE := by
        rw [← Std.OrientedCmp.isGE_iff_isLE]
        cases hcompare : compare (key (shown value)) target <;> simp_all
      exact Std.OrientedCmp.gt_of_lt (Std.TransCmp.lt_of_isLE_of_lt hle (hsorted.2.1.1 item hitem))
    rw [hmapped]
    cases hcompare : compare (key (shown value)) target with
    | lt => exact absurd hvalue (by rw [hcompare]; decide)
    | eq =>
        obtain ⟨hfront, hfind, hback⟩ := cut_match hbelow hcompare hright
        exact ⟨left, value, right, hsplit, hlist, hfront, .inl ⟨hcompare, hfind, hback⟩⟩
    | gt =>
        obtain ⟨hfront, hfind, hback⟩ := cut_gap hbelow (forall_mem_cons.mpr ⟨hcompare, hright⟩)
        exact ⟨left, value, right, hsplit, hlist, hfront, .inr ⟨hcompare, hfind, hback⟩⟩

theorem split_above {predicate : v → Bool} {target : k} (hpredicate : ∀ measure, predicate measure =
      (lastKey measure).any fun last => compare last target == .gt) :
    (tree.split predicate = none ∧ above compare key target (tree.toList.map shown) = []) ∨
    ∃ left value right, tree.split predicate = some (left, value, right) ∧
      tree.toList = left.toList ++ value :: right.toList ∧
      above compare key target (tree.toList.map shown) = shown value :: right.toList.map shown ∧
      ∀ item ∈ left.toList.map shown, compare (key item) target ≠ .gt := by
  have hmono : tree.toList.Pairwise fun before after =>
      (compare (key (shown before)) target == .gt) = true →
        (compare (key (shown after)) target == .gt) = true := by
    refine (pairwise_map.mp hsorted).imp ?_
    intro before after hlt hbefore
    rw [beq_iff_eq] at hbefore ⊢
    exact Std.TransCmp.gt_trans (Std.OrientedCmp.gt_of_lt hlt) hbefore
  obtain ⟨hone, hprefix⟩ := lastKey_accepts hlast (· == .gt) hpredicate
  have habove : ∀ values : List α,
      (∀ value ∈ values, (compare (key (shown value)) target == .gt) = false) →
      ∀ item ∈ values.map shown, compare (key item) target ≠ .gt := by
    intro values hvalues item hitem
    obtain ⟨value, hvalue, rfl⟩ := mem_map.mp hitem
    exact beq_eq_false_iff_ne.mp (hvalues value hvalue)
  rcases split_last hprefix hone tree hmono with ⟨hsplit, hnone⟩ |
    ⟨left, value, right, hsplit, hlist, hleft, hvalue, hright⟩
  · exact .inl ⟨hsplit, above_nil (habove _ hnone)⟩
  · refine .inr ⟨left, value, right, hsplit, hlist, ?_, habove _ hleft⟩
    rw [hlist, map_append, map_cons, above_append, above_nil (habove _ hleft), nil_append]
    apply above_self
    intro item hitem
    rcases mem_cons.mp hitem with rfl | hitem
    · exact eq_of_beq hvalue
    · obtain ⟨other, hother, rfl⟩ := mem_map.mp hitem
      exact eq_of_beq (hright other hother)

end Keyed

end Durable7.FingerTree.Measured.ValidTree
