import Durable7.Ordered.PersistentOrderedSet.Edits
import Durable7.Hamt.HashMap.Histories
import Durable7.Foundation.Branching

/-!
# Histories of insertion-ordered sets

Set algebra keeps the order of the receiver and then that of the argument.  Every version of a
branching history lists the items its edits call for, in their order.
-/

namespace Durable7.Ordered.PersistentOrderedSet

open Foundation FingerTree Hamt HashMap Int Bool List

universe u

variable {D : Type → Type u} [OrderDeque D] {a : Type} {hashPolicy : HashPolicy a}

/-! ## Distinct items -/

section Distinct

variable {same : a → a → Bool} (hsame : Equivalence fun left right => same left right = true)

include hsame

omit hsame in
theorem contains_append (key : a) (left right : List a) :
    ListModel.contains same key (left ++ right) =
      (ListModel.contains same key left || ListModel.contains same key right) := any_append

omit hsame in
theorem distinct_concat (items : List a) (item : a) :
    ListModel.distinct same (items ++ [item]) =
      if ListModel.contains same item (ListModel.distinct same items) then
        ListModel.distinct same items
      else ListModel.distinct same items ++ [item] := by
  rw [ListModel.distinct, foldl_append]
  rfl

theorem contains_congr {key other : a} (hkey : same key other = true) (items : List a) :
    ListModel.contains same key items = ListModel.contains same other items := by
  rw [ListModel.contains, ListModel.contains]
  exact congrArg items.any (funext fun item => same_congr hsame hkey item)

theorem contains_distinct (key : a) (items : List a) :
    ListModel.contains same key (ListModel.distinct same items) =
      ListModel.contains same key items := by
  induction items using List.reverseRecOn with
  | nil => rfl
  | append_singleton items item ih =>
      rw [distinct_concat, contains_append]
      split
      · rename_i hcontained
        rw [ih]
        by_cases hkey : same key item = true
        · rw [contains_congr hsame hkey, contains_congr hsame hkey] at ih
          rw [contains_congr hsame hkey, ← ih, hcontained]
          rfl
        · have hnone : ListModel.contains same key [item] = false :=
            any_eq_false.mpr fun other hother => mem_singleton.mp hother ▸ hkey
          rw [hnone, Bool.or_false]
      · rw [contains_append, ih]

theorem apart_append {left right : List a} (hleft : Apart same left) (hright : Apart same right)
    (hacross : ∀ item ∈ right, ListModel.contains same item left = false) :
    Apart same (left ++ right) := by
  refine pairwise_append.mpr ⟨hleft, hright, fun first hfirst second hsecond => ?_⟩
  rw [same_comm hsame]
  exact eq_false_iff.mpr (any_eq_false.mp (hacross second hsecond) first hfirst)

theorem distinct_apart (items : List a) : Apart same (ListModel.distinct same items) := by
  induction items using List.reverseRecOn with
  | nil => exact .nil
  | append_singleton items item ih =>
      rw [distinct_concat]
      split
      · exact ih
      · rename_i habsent
        refine apart_append hsame ih (pairwise_singleton _ _) fun other hother => ?_
        exact mem_singleton.mp hother ▸ eq_false_iff.mpr habsent

end Distinct

theorem normalize_spec (hlawful : hashPolicy.Lawful) (items : List a) :
    (normalize hashPolicy items).1 = ListModel.distinct hashPolicy.equalKeys items ∧
      ∀ key, member key (normalize hashPolicy items).2 =
        ListModel.contains hashPolicy.equalKeys key items := by
  have hsame := hlawful.equivalence
  suffices hstate : ∀ state : List a × HashMap a Unit,
      items.foldl (fun state item => if HashMap.member item state.2 then state
        else (item :: state.1, insert item () state.2)) ([], HashMap.emptyWith hashPolicy) = state →
      state.1.reverse = ListModel.distinct hashPolicy.equalKeys items ∧
        state.2.WellFormed ∧ state.2.policy = hashPolicy ∧
        ∀ key, member key state.2 = ListModel.contains hashPolicy.equalKeys key items by
    obtain ⟨hkept, -, -, hmember⟩ := hstate _ rfl
    exact ⟨hkept, hmember⟩
  induction items using List.reverseRecOn with
  | nil =>
      rintro state rfl
      have hempty : (HashMap.emptyWith hashPolicy : HashMap a Unit).WellFormed :=
        emptyWith_wellFormed hlawful
      exact ⟨rfl, hempty, rfl, fun key => hempty.member_eq key⟩
  | append_singleton items item ih =>
      rintro state rfl
      obtain ⟨hkept, hwellFormed, hpolicy, hmember⟩ := ih _ rfl
      rw [foldl_append, foldl_cons, foldl_nil]
      generalize items.foldl _ _ = before at hkept hwellFormed hpolicy hmember ⊢
      rw [distinct_concat, contains_distinct hsame, ← hmember]
      by_cases hfound : member item before.2 = true
      · rw [if_pos hfound, if_pos hfound]
        refine ⟨hkept, hwellFormed, hpolicy, fun key => ?_⟩
        rw [← contains_distinct hsame key (items ++ [item]), distinct_concat,
          contains_distinct hsame, ← hmember, if_pos hfound, contains_distinct hsame, hmember]
      · have hafter := insert_becomes hwellFormed item ()
        rw [if_neg hfound, if_neg hfound]
        refine ⟨?_, hafter.wellFormed, hafter.policy_eq.trans hpolicy, fun key => ?_⟩
        · rw [reverse_cons, hkept]
        · rw [contains_append, ← hmember, hafter.wellFormed.member_eq, hafter.entryOf_eq,
            hwellFormed.member_eq, hpolicy]
          by_cases hkey : hashPolicy.equalKeys key item = true
          · have hone : ListModel.contains hashPolicy.equalKeys key [item] = true :=
              any_eq_true.mpr ⟨item, mem_singleton_self item, hkey⟩
            rw [if_pos hkey, hone, Bool.or_true]
            rfl
          · have hone : ListModel.contains hashPolicy.equalKeys key [item] = false :=
              any_eq_false.mpr fun other hother => mem_singleton.mp hother ▸ hkey
            rw [if_neg hkey, hone, Bool.or_false]

theorem fromListWith_makes (hlawful : hashPolicy.Lawful) (items : List a) :
    Makes hashPolicy (fromListWith hashPolicy items : Outcome (PersistentOrderedSet D a))
      (ListModel.distinct hashPolicy.equalKeys items) := by
  rw [fromListWith, distinctInOrder, (normalize_spec hlawful items).1]
  exact buildFromItems_makes hlawful (distinct_apart hlawful.equivalence items)

section Algebra

variable {set : PersistentOrderedSet D a} {items : List a} (h : Holds hashPolicy set items)

include h

theorem retained_makes (keep : a → Bool) :
    Makes hashPolicy
      (if ((toList set).filter keep).length = size set then .ok set
        else buildFromItems (policy set) ((toList set).filter keep)) (items.filter keep) := by
  rw [h.items_eq, h.size_eq, h.policy_eq]
  split
  · rename_i hwhole
    have hsame : items.filter keep = items := (filter_sublist).eq_of_length (ofNat.inj hwhole)
    rw [hsame]
    exact .made h
  · exact buildFromItems_makes h.indexed.lawful (h.apart.sublist filter_sublist)

theorem intersection_makes (other : List a) :
    Makes hashPolicy (intersection other set)
      (ListModel.intersection hashPolicy.equalKeys other items) := by
  have hmember := (normalize_spec h.indexed.lawful other).2
  have hretained := retained_makes h fun item => member item (normalize (policy set) other).2
  rw [h.policy_eq] at hretained
  rw [intersection, h.policy_eq]
  refine (congrArg (Makes hashPolicy _) ?_).mp hretained
  exact filter_congr fun item _ => hmember item

theorem difference_makes (other : List a) :
    Makes hashPolicy (difference other set)
      (ListModel.outside hashPolicy.equalKeys other items) := by
  have hmember := (normalize_spec h.indexed.lawful other).2
  have hretained := retained_makes h fun item => !member item (normalize (policy set) other).2
  rw [h.policy_eq] at hretained
  rw [difference, h.policy_eq]
  refine (congrArg (Makes hashPolicy _) ?_).mp hretained
  exact filter_congr fun item _ => congrArg not (hmember item)

theorem additions_eq (other : List a) :
    ((normalize hashPolicy other).1.filter fun item => !member item set.stamps) =
      ListModel.outside hashPolicy.equalKeys items
        (ListModel.distinct hashPolicy.equalKeys other) := by
  rw [(normalize_spec h.indexed.lawful other).1, ListModel.outside]
  exact filter_congr fun item _ => congrArg not (h.member_eq item)

omit h in
theorem mem_outside {same : a → a → Bool} {other items : List a} {item : a}
    (hitem : item ∈ ListModel.outside same other items) :
    item ∈ items ∧ ListModel.contains same item other = false := by
  obtain ⟨hmem, hkeep⟩ := mem_filter.mp hitem
  exact ⟨hmem, not_eq_true' _ ▸ hkeep⟩

theorem union_makes (other : List a) :
    Makes hashPolicy (union other set) (ListModel.union hashPolicy.equalKeys other items) := by
  have hsame := h.indexed.equivalence
  rw [union, h.policy_eq, additions_eq h, h.items_eq, ListModel.union]
  split
  · rename_i hnil
    rw [isEmpty_iff.mp hnil, append_nil]
    exact .made h
  · refine buildFromItems_makes h.indexed.lawful (apart_append hsame h.apart ?_ ?_)
    · exact (distinct_apart hsame other).sublist filter_sublist
    · exact fun item hitem => (mem_outside hitem).2

theorem symmetricDifference_makes (other : List a) :
    Makes hashPolicy (symmetricDifference other set)
      (ListModel.symmetricDifference hashPolicy.equalKeys other items) := by
  have hsame := h.indexed.equivalence
  have hmember := (normalize_spec h.indexed.lawful other).2
  have hadditions := additions_eq h other
  have hreceiver : ((toList set).filter fun item =>
      !member item (normalize hashPolicy other).2) =
        ListModel.outside hashPolicy.equalKeys other items := by
    rw [h.items_eq, ListModel.outside]
    exact filter_congr fun item _ => congrArg not (hmember item)
  rw [symmetricDifference, h.policy_eq]
  dsimp only
  rw [hadditions, hreceiver, (normalize_spec h.indexed.lawful other).1]
  split
  · rename_i hnil
    have hnone : ListModel.distinct hashPolicy.equalKeys other = [] := isEmpty_iff.mp hnil
    have hwhole : ListModel.outside hashPolicy.equalKeys other items = items := by
      refine filter_eq_self.mpr fun item _ => ?_
      rw [← contains_distinct hsame, hnone]
      rfl
    rw [ListModel.symmetricDifference, hwhole, hnone]
    exact .made ((append_nil items).symm ▸ h)
  · refine buildFromItems_makes h.indexed.lawful (apart_append hsame ?_ ?_ ?_)
    · exact h.apart.sublist filter_sublist
    · exact (distinct_apart hsame other).sublist filter_sublist
    · intro item hitem
      have hfree := (mem_outside hitem).2
      refine any_eq_false.mpr fun stored hstored => ?_
      exact any_eq_false.mp hfree stored (mem_outside hstored).1

end Algebra

/-! ## Branching histories -/

/-- One edit.  Versions are numbered in the order they were made. -/
inductive Edit (a : Type) where
  | emptyWith
  | fromListWith (items : List a)
  | add (item : a) (version : Nat)
  | addFirst (item : a) (version : Nat)
  | insertAt (index : Int) (item : a) (version : Nat)
  | moveToFirst (item : a) (version : Nat)
  | moveToLast (item : a) (version : Nat)
  | moveTo (index : Int) (item : a) (version : Nat)
  | delete (item : a) (version : Nat)
  | tryRemove (item : a) (version : Nat)
  | deleteAt (index : Int) (version : Nat)
  | removeFirst (version : Nat)
  | removeLast (version : Nat)
  | clear (version : Nat)
  | getRange (index count : Int) (version : Nat)
  | take (count : Int) (version : Nat)
  | drop (count : Int) (version : Nat)
  | reverse (version : Nat)
  | sortBy (comparison : a → a → Ordering) (version : Nat)
  | union (other : List a) (version : Nat)
  | intersection (other : List a) (version : Nat)
  | difference (other : List a) (version : Nat)
  | symmetricDifference (other : List a) (version : Nat)

def single (outcome : Outcome (PersistentOrderedSet D a)) :
    Outcome (List (PersistentOrderedSet D a)) :=
  outcome.map fun made => [made]

def optional (outcome : Outcome (Option (PersistentOrderedSet D a))) :
    Outcome (List (PersistentOrderedSet D a)) :=
  outcome.map Option.toList

def produce (hashPolicy : HashPolicy a) (versions : List (PersistentOrderedSet D a)) :
    Edit a → Outcome (List (PersistentOrderedSet D a))
  | .emptyWith => .ok [emptyWith hashPolicy]
  | .fromListWith items => single (fromListWith hashPolicy items)
  | .add item version => onVersion versions version fun set => single (add item set)
  | .addFirst item version => onVersion versions version fun set => single (addFirst item set)
  | .insertAt index item version => onVersion versions version fun set =>
      optional (insertAt index item set)
  | .moveToFirst item version => onVersion versions version fun set =>
      optional (moveToFirst item set)
  | .moveToLast item version => onVersion versions version fun set => optional (moveToLast item set)
  | .moveTo index item version => onVersion versions version fun set =>
      optional (moveTo index item set)
  | .delete item version => onVersion versions version fun set => single (delete item set)
  | .tryRemove item version => onVersion versions version fun set => optional (tryRemove item set)
  | .deleteAt index version => onVersion versions version fun set => optional (deleteAt index set)
  | .removeFirst version => onVersion versions version fun set => optional (removeFirst set)
  | .removeLast version => onVersion versions version fun set => optional (removeLast set)
  | .clear version => onVersion versions version fun set => .ok [clear set]
  | .getRange index count version => onVersion versions version fun set =>
      .ok (getRange index count set).toList
  | .take count version => onVersion versions version fun set => .ok (take count set).toList
  | .drop count version => onVersion versions version fun set => .ok (drop count set).toList
  | .reverse version => onVersion versions version fun set => single (reverse set)
  | .sortBy comparison version => onVersion versions version fun set =>
      single (sortBy comparison set)
  | .union other version => onVersion versions version fun set => single (union other set)
  | .intersection other version => onVersion versions version fun set =>
      single (intersection other set)
  | .difference other version => onVersion versions version fun set => single (difference other set)
  | .symmetricDifference other version => onVersion versions version fun set =>
      single (symmetricDifference other set)

/-- The lists an edit adds where there are stamps for them. -/
def ListModel.produce (same : a → a → Bool) (models : List (List a)) : Edit a → List (List a)
  | .emptyWith => [[]]
  | .fromListWith items => [distinct same items]
  | .add item version => onModel models version fun items => [insert same items.length item items]
  | .addFirst item version => onModel models version fun items => [insert same 0 item items]
  | .insertAt index item version => onModel models version fun items =>
      if index < 0 ∨ index > items.length then [] else [insert same index.toNat item items]
  | .moveToFirst item version => onModel models version fun items =>
      (moveTo same 0 item items).toList
  | .moveToLast item version => onModel models version fun items =>
      (moveTo same (items.length - 1) item items).toList
  | .moveTo index item version => onModel models version fun items =>
      if index < 0 ∨ index ≥ items.length then [] else (moveTo same index.toNat item items).toList
  | .delete item version => onModel models version fun items =>
      [(tryRemove same item items).getD items]
  | .tryRemove item version => onModel models version fun items =>
      (tryRemove same item items).toList
  | .deleteAt index version => onModel models version fun items =>
      (ListModel.deleteAt index items).toList
  | .removeFirst version => onModel models version fun items => (ListModel.deleteAt 0 items).toList
  | .removeLast version => onModel models version fun items =>
      (ListModel.deleteAt (items.length - 1) items).toList
  | .clear version => onModel models version fun _ => [[]]
  | .getRange index count version => onModel models version fun items =>
      (getRange index count items).toList
  | .take count version => onModel models version fun items => (getRange 0 count items).toList
  | .drop count version => onModel models version fun items =>
      if count < 0 ∨ count > items.length then []
      else (getRange count (items.length - count) items).toList
  | .reverse version => onModel models version fun items => [items.reverse]
  | .sortBy comparison version => onModel models version fun items => [sortBy comparison items]
  | .union other version => onModel models version fun items => [union same other items]
  | .intersection other version => onModel models version fun items =>
      [intersection same other items]
  | .difference other version => onModel models version fun items => [outside same other items]
  | .symmetricDifference other version => onModel models version fun items =>
      [symmetricDifference same other items]

/-- More items than there are stamps. -/
def Exhausts (problem : OrderedError) (expected : List (List a)) : Prop :=
  problem = .stampSpaceExhausted ∧ ∃ items ∈ expected, stampCapacity < items.length

abbrev Adds (hashPolicy : HashPolicy a) (outcome : Outcome (List (PersistentOrderedSet D a)))
    (expected : List (List a)) : Prop :=
  AddsOr (Holds hashPolicy) Exhausts outcome expected

theorem Makes.adds {outcome : Outcome (PersistentOrderedSet D a)} {expected : List a}
    (h : Makes hashPolicy outcome expected) : Adds hashPolicy (single outcome) [expected] := by
  cases h with
  | made h => exact addsOr_ok (.cons h .nil)
  | exhausted h => exact addsOr_error ⟨rfl, expected, mem_cons_self, h⟩

theorem MakesOption.adds {outcome : Outcome (Option (PersistentOrderedSet D a))}
    {expected : Option (List a)} (h : MakesOption hashPolicy outcome expected) :
    Adds hashPolicy (optional outcome) expected.toList := by
  cases h with
  | nothing => exact addsOr_ok .nil
  | made h => exact addsOr_ok (.cons h .nil)
  | @exhausted expected h => exact addsOr_error ⟨rfl, expected, mem_cons_self, h⟩

section

variable {set : PersistentOrderedSet D a} {items : List a} (h : Holds hashPolicy set items)
include h

theorem insertAt_adds (index : Int) (item : a) :
    Adds hashPolicy (optional (insertAt index item set))
      (if index < 0 ∨ index > items.length then []
        else [ListModel.insert hashPolicy.equalKeys index.toNat item items]) := by
  rw [insertAt, h.size_eq]
  split
  · exact addsOr_ok .nil
  · exact (insertCore_makes h (by omega) (by omega) item).option.adds

theorem moveTo_adds (index : Int) (item : a) :
    Adds hashPolicy (optional (moveTo index item set))
      (if index < 0 ∨ index ≥ items.length then []
        else (ListModel.moveTo hashPolicy.equalKeys index.toNat item items).toList) := by
  rw [moveTo, h.size_eq]
  split
  · exact addsOr_ok .nil
  · exact (moveExisting_makes h (fun _ => by omega) item).adds

theorem delete_makes (item : a) :
    Makes hashPolicy (delete item set)
      ((ListModel.tryRemove hashPolicy.equalKeys item items).getD items) := by
  have hremoved := tryRemove_makes h item
  rw [delete]
  generalize tryRemove item set = outcome at hremoved ⊢
  generalize ListModel.tryRemove hashPolicy.equalKeys item items = expected at hremoved ⊢
  cases hremoved with
  | nothing => exact .made h
  | made hmade => exact .made hmade
  | exhausted hlong => exact .exhausted hlong

theorem clear_holds : Holds hashPolicy (clear set) [] := by
  rw [clear, null, h.size_eq, h.policy_eq]
  split
  · rename_i hnil
    have hitems : items = [] := length_eq_zero_iff.mp (ofNat.inj (beq_iff_eq.mp hnil))
    exact hitems ▸ h
  · exact emptyWith_holds h.indexed.lawful

theorem drop_refines (count : Int) :
    List.Forall₂ (Holds hashPolicy) (drop count set).toList
      (if count < 0 ∨ count > items.length then []
        else (ListModel.getRange count (items.length - count) items).toList) := by
  rw [drop, h.size_eq]
  split
  · exact .nil
  · exact toList_refines (getRange_refines h count _)

theorem take_refines (count : Int) :
    Option.Rel (Holds hashPolicy) (take count set) (ListModel.getRange 0 count items) := by
  rw [take, h.size_eq]
  split
  · rw [ListModel.getRange, if_pos (by omega)]
    exact .none
  · exact getRange_refines h 0 count

end

theorem produce_adds (hlawful : hashPolicy.Lawful) (versions : List (PersistentOrderedSet D a))
    (models : List (List a)) (edit : Edit a) (h : List.Forall₂ (Holds hashPolicy) versions models) :
    Adds hashPolicy (produce hashPolicy versions edit)
      (ListModel.produce hashPolicy.equalKeys models edit) := by
  cases edit with
  | emptyWith => exact addsOr_ok (.cons (emptyWith_holds hlawful) .nil)
  | fromListWith items => exact (fromListWith_makes hlawful items).adds
  | add item version =>
      refine onVersion_addsOr h version fun set items hset => ?_
      have hinsert := insertCore_makes hset (natCast_nonneg _) (le_refl _) item
      rw [add, hset.size_eq]
      exact hinsert.adds
  | addFirst item version =>
      exact onVersion_addsOr h version fun _ _ hset =>
        (insertCore_makes hset (le_refl 0) (natCast_nonneg _) item).adds
  | insertAt index item version =>
      exact onVersion_addsOr h version fun _ _ hset => insertAt_adds hset index item
  | moveToFirst item version =>
      refine onVersion_addsOr h version fun set items hset => ?_
      refine (moveExisting_makes hset (fun hitems => ?_) item).adds
      have hpositive := length_pos_iff.mpr hitems
      omega
  | moveToLast item version =>
      refine onVersion_addsOr h version fun set items hset => ?_
      have hmoved :=
        @moveExisting_makes _ _ _ _ _ _ hset ((items.length : Int) - 1) (fun hitems => by
        have hpositive := length_pos_iff.mpr hitems
        omega) item
      rw [show ((items.length : Int) - 1).toNat = items.length - 1 by omega] at hmoved
      rw [moveToLast, hset.size_eq]
      exact hmoved.adds
  | moveTo index item version =>
      exact onVersion_addsOr h version fun _ _ hset => moveTo_adds hset index item
  | delete item version =>
      exact onVersion_addsOr h version fun _ _ hset => (delete_makes hset item).adds
  | tryRemove item version =>
      exact onVersion_addsOr h version fun _ _ hset => (tryRemove_makes hset item).adds
  | deleteAt index version =>
      exact onVersion_addsOr h version fun _ _ hset => (deleteAt_makes hset index).adds
  | removeFirst version =>
      exact onVersion_addsOr h version fun _ _ hset => (deleteAt_makes hset 0).adds
  | removeLast version =>
      refine onVersion_addsOr h version fun set items hset => ?_
      rw [removeLast, hset.size_eq]
      exact (deleteAt_makes hset _).adds
  | clear version =>
      exact onVersion_addsOr h version fun _ _ hset => addsOr_ok (.cons (clear_holds hset) .nil)
  | getRange index count version =>
      exact onVersion_addsOr h version fun _ _ hset =>
        addsOr_ok (toList_refines (getRange_refines hset index count))
  | take count version =>
      exact onVersion_addsOr h version fun _ _ hset =>
        addsOr_ok (toList_refines (take_refines hset count))
  | drop count version =>
      exact onVersion_addsOr h version fun _ _ hset => addsOr_ok (drop_refines hset count)
  | reverse version => exact onVersion_addsOr h version fun _ _ hset => (reverse_makes hset).adds
  | sortBy comparison version =>
      exact onVersion_addsOr h version fun _ _ hset => (sortBy_makes hset comparison).adds
  | union other version =>
      exact onVersion_addsOr h version fun _ _ hset => (union_makes hset other).adds
  | intersection other version =>
      exact onVersion_addsOr h version fun _ _ hset => (intersection_makes hset other).adds
  | difference other version =>
      exact onVersion_addsOr h version fun _ _ hset => (difference_makes hset other).adds
  | symmetricDifference other version =>
      exact onVersion_addsOr h version fun _ _ hset => (symmetricDifference_makes hset other).adds

/-- What a set shows of its items. -/
structure Observes (hashPolicy : HashPolicy a) (set : PersistentOrderedSet D a) (items : List a) :
    Prop where
  valid : validStructure set = true
  listed : toList set = items
  apart : Apart hashPolicy.equalKeys items
  sized : size set = items.length
  ranked : ∀ index, at? index set = if index < 0 then none else items[index.toNat]?
  found : ∀ item, indexOf item set =
    .ok ((ListModel.position hashPolicy.equalKeys item items).elim (-1) Nat.cast)
  member : ∀ item, contains item set = ListModel.contains hashPolicy.equalKeys item items
  stored : ∀ item, actualValue item set =
    (ListModel.position hashPolicy.equalKeys item items).bind fun index => items[index]?
  rankOfItem : ∀ index item, at? index set = some item → indexOf item set = .ok index
  itemOfRank : ∀ index item, indexOf item set = .ok index → index ≠ -1 →
    ∃ stored, at? index set = some stored ∧ hashPolicy.equalKeys item stored = true

section Reading

variable {set : PersistentOrderedSet D a} {items : List a} (h : Holds hashPolicy set items)

include h

theorem at_eq (index : Int) : at? index set = if index < 0 then none else items[index.toNat]? := by
  rw [at?, OrderDeque.index_eq, ← h.items_eq, toList, entries, List.getElem?_map]
  split <;> rfl

theorem indexOf_eq (item : a) :
    indexOf item set =
      .ok ((ListModel.position hashPolicy.equalKeys item items).elim (-1) Nat.cast) := by
  rw [indexOf, h.indexed.wellFormed.lookup_eq]
  rcases h.cases item with ⟨hentry, hposition, -⟩ |
    ⟨front, pair, back, hpairs, hentry, -, hposition, -⟩
  · rw [hentry, hposition]
    rfl
  · rw [hentry, hposition]
    exact h.indexOfStamp_eq hpairs

theorem actualValue_eq (item : a) :
    actualValue item set =
      (ListModel.position hashPolicy.equalKeys item items).bind fun index => items[index]? := by
  rw [actualValue, h.indexed.wellFormed.actualKey_eq]
  rcases h.cases item with ⟨hentry, hposition, -⟩ |
    ⟨front, pair, back, hpairs, hentry, -, hposition, -, hitems⟩
  · rw [hentry, hposition]
    rfl
  · have hfront : (front.map Prod.fst).length = front.length := length_map _
    rw [hentry, hposition, Option.bind_some, hitems, ← hfront,
      List.getElem?_append_right (Nat.le_refl _), Nat.sub_self]
    rfl

theorem position_of_at {position : Nat} {item : a} (hitem : items[position]? = some item) :
    ListModel.position hashPolicy.equalKeys item items = some position := by
  have hsame := h.indexed.equivalence
  obtain ⟨hlt, rfl⟩ := List.getElem?_eq_some_iff.mp hitem
  refine List.findIdx?_eq_some_iff_getElem.mpr ⟨hlt, same_refl hsame _, fun other hother => ?_⟩
  rw [same_comm hsame, pairwise_iff_getElem.mp h.apart other position (by omega) hlt hother]
  exact false_ne_true

theorem Holds.observes : Observes hashPolicy set items where
  valid := h.validStructure_eq
  listed := h.items_eq
  apart := h.apart
  sized := h.size_eq
  ranked := at_eq h
  found := indexOf_eq h
  member := h.member_eq
  stored := actualValue_eq h
  rankOfItem index item hitem := by
    rw [at_eq h] at hitem
    split at hitem
    · cases hitem
    · rw [indexOf_eq h, position_of_at h hitem, Option.elim_some, toNat_of_nonneg (by omega)]
  itemOfRank index item hindex hpresent := by
    rw [indexOf_eq h] at hindex
    cases hposition : ListModel.position hashPolicy.equalKeys item items with
    | none =>
        rw [hposition] at hindex
        exact absurd (Except.ok.inj hindex).symm hpresent
    | some position =>
        rw [hposition] at hindex
        obtain rfl : (position : Int) = index := Except.ok.inj hindex
        obtain ⟨hlt, hitem, -⟩ := List.findIdx?_eq_some_iff_getElem.mp hposition
        refine ⟨items[position], ?_, hitem⟩
        rw [at_eq h, if_neg (not_lt.mpr (natCast_nonneg _)), toNat_natCast,
          List.getElem?_eq_getElem hlt]

end Reading

/-- Every version of every branching history shows its items in their order, and an edit fails
only where it has more items than stamps. -/
theorem sets_exact (hashPolicy : HashMap.LawfulPolicy a) (edits : List (Edit a)) :
    ∃ models,
      Grows (fun models edit =>
        Excused Exhausts (ListModel.produce hashPolicy.equalKeys models edit))
        [] edits models ∧
      List.Forall₂ (Observes hashPolicy.toHashPolicy)
        (grow (produce hashPolicy.toHashPolicy)
          ([] : List (PersistentOrderedSet D a)) edits) models ∧
      ∀ edit, AddsOr (Observes hashPolicy.toHashPolicy) Exhausts
        (produce hashPolicy.toHashPolicy
          (grow (produce hashPolicy.toHashPolicy)
            ([] : List (PersistentOrderedSet D a)) edits) edit)
        (ListModel.produce hashPolicy.equalKeys models edit) :=
  grow_addsOr (fun _ _ => Holds.observes) (produce_adds hashPolicy.lawful) edits

end Durable7.Ordered.PersistentOrderedSet
