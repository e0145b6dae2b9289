import Durable7.Foundation.Keyed

/-!
# Ordered association lists

A map over a comparer as a list of pairs in the order of the comparer, one for
every class of equivalent keys.  Putting a pair keeps the key that is already
there, so that a class shows its first key and its last value.
-/

namespace Durable7.Foundation

open List Std.TransCmp Std.OrientedCmp Nat

universe u v

variable {κ : Type u} {ν : Type v}

def putPair (compare : κ → κ → Ordering) (key : κ) (value : ν) : List (κ × ν) → List (κ × ν)
  | [] => [(key, value)]
  | pair :: rest =>
      match compare pair.1 key with
      | .lt => pair :: putPair compare key value rest
      | .eq => (pair.1, value) :: rest
      | .gt => (key, value) :: pair :: rest

def erasePair (compare : κ → κ → Ordering) (key : κ) (pairs : List (κ × ν)) : List (κ × ν) :=
  pairs.filter fun pair => compare pair.1 key != .eq

def putAll (compare : κ → κ → Ordering) (source : List (κ × ν)) : List (κ × ν) :=
  source.foldl (fun pairs pair => putPair compare pair.1 pair.2 pairs) []

/-- One more pair of a class: the first key stays, the last value counts. -/
def putSlot (slot : Option (κ × ν)) (pair : κ × ν) : Option (κ × ν) :=
  some (slot.elim pair.1 Prod.fst, pair.2)

variable {pairs : List (κ × ν)}

section Put

variable {compare : κ → κ → Ordering} {key : κ} {value : ν}

section

variable {below above : List (κ × ν)} (hbelow : ∀ pair ∈ below, compare pair.1 key = .lt)
include hbelow

/-- Pairs below the key are passed over. -/
theorem putPair_append :
    putPair compare key value (below ++ above) = below ++ putPair compare key value above := by
  induction below with
  | nil => rfl
  | cons pair below ih =>
      rw [cons_append, putPair, hbelow pair mem_cons_self]
      simp only
      rw [ih fun other hother => hbelow other (mem_cons_of_mem _ hother), cons_append]

theorem putPair_match {existing : κ × ν} (hmatch : compare existing.1 key = .eq) :
    putPair compare key value (below ++ existing :: above) =
      below ++ (existing.1, value) :: above := by
  rw [putPair_append hbelow, putPair, hmatch]

theorem putPair_gap (habove : ∀ pair ∈ above, compare pair.1 key = .gt) :
    putPair compare key value (below ++ above) = below ++ (key, value) :: above := by
  rw [putPair_append hbelow]
  cases above with
  | nil => rfl
  | cons pair above => rw [putPair, habove pair mem_cons_self]

end

theorem erasePair_absent (h : ∀ pair ∈ pairs, compare pair.1 key ≠ .eq) :
    erasePair compare key pairs = pairs := by
  rw [erasePair, filter_eq_self]
  intro pair hpair
  simpa using h pair hpair

theorem erasePair_match {below above : List (κ × ν)} {existing : κ × ν}
    (hbelow : ∀ pair ∈ below, compare pair.1 key ≠ .eq) (hmatch : compare existing.1 key = .eq)
    (habove : ∀ pair ∈ above, compare pair.1 key ≠ .eq) :
    erasePair compare key (below ++ existing :: above) = below ++ above := by
  have hfront := erasePair_absent hbelow
  have hback := erasePair_absent habove
  rw [erasePair] at hfront hback ⊢
  rw [filter_append, filter_cons_of_neg (by simp [hmatch]), hfront, hback]

/-- A put brings in no key but its own. -/
theorem mem_putPair {pair : κ × ν} (h : pair ∈ putPair compare key value pairs) :
    pair.1 = key ∨ ∃ stored ∈ pairs, stored.1 = pair.1 := by
  induction pairs with
  | nil =>
      rw [mem_singleton.mp h]
      exact .inl rfl
  | cons first rest ih =>
      rw [putPair] at h
      cases hcompare : compare first.1 key with
      | lt =>
          rw [hcompare] at h
          rcases mem_cons.mp h with rfl | h
          · exact .inr ⟨pair, mem_cons_self, rfl⟩
          · rcases ih h with heq | ⟨stored, hstored, heq⟩
            · exact .inl heq
            · exact .inr ⟨stored, mem_cons_of_mem _ hstored, heq⟩
      | eq =>
          rw [hcompare] at h
          rcases mem_cons.mp h with rfl | h
          · exact .inr ⟨first, mem_cons_self, rfl⟩
          · exact .inr ⟨pair, mem_cons_of_mem _ h, rfl⟩
      | gt =>
          rw [hcompare] at h
          rcases mem_cons.mp h with rfl | h
          · exact .inl rfl
          · exact .inr ⟨pair, h, rfl⟩

/-- A put never shortens a list, and an absent key makes it one longer. -/
theorem length_putPair (pairs : List (κ × ν)) :
    pairs.length ≤ (putPair compare key value pairs).length := by
  induction pairs with
  | nil => exact zero_le _
  | cons pair rest ih =>
      rw [putPair]
      cases compare pair.1 key with
      | lt => exact succ_le_succ ih
      | eq => exact le_refl _
      | gt => exact le_succ _

theorem length_putPair_absent (h : ∀ pair ∈ pairs, compare pair.1 key ≠ .eq) :
    (putPair compare key value pairs).length = pairs.length + 1 := by
  induction pairs with
  | nil => rfl
  | cons pair rest ih =>
      rw [putPair]
      cases hcompare : compare pair.1 key with
      | lt =>
          have hrest := ih fun other hother => h other (mem_cons_of_mem _ hother)
          rw [length_cons, hrest, length_cons]
      | eq => exact absurd hcompare (h pair mem_cons_self)
      | gt => rfl

variable [Std.TransCmp compare]

section

variable (h : StrictlySorted compare Prod.fst pairs)
include h

/-- In a sorted list every pair splits the others. -/
theorem StrictlySorted.around {index : Nat}
    (hindex : index < pairs.length) :
    pairs = pairs.take index ++ pairs[index] :: pairs.drop (index + 1) ∧
      (∀ pair ∈ pairs.take index, compare pair.1 pairs[index].1 = .lt) ∧
      ∀ pair ∈ pairs.drop (index + 1), compare pair.1 pairs[index].1 = .gt := by
  have hsplit : pairs = pairs.take index ++ pairs[index] :: pairs.drop (index + 1) := by
    rw [getElem_cons_drop, take_append_drop]
  have hsorted := h
  rw [hsplit, StrictlySorted, pairwise_append, pairwise_cons] at hsorted
  obtain ⟨-, ⟨habove, -⟩, hbelow⟩ := hsorted
  refine ⟨hsplit, fun pair hpair => hbelow pair hpair _ mem_cons_self, ?_⟩
  intro pair hpair
  exact gt_of_lt (habove pair hpair)

/-- An absent key goes to the gap that its lower bound counts. -/
theorem putPair_lowerBound (habsent : ∀ pair ∈ pairs, compare pair.1 key ≠ .eq) :
    putPair compare key value pairs =
      pairs.insertIdx (pairs.filter fun pair => compare pair.1 key == .lt).length (key, value) := by
  induction pairs with
  | nil => rfl
  | cons pair rest ih =>
      obtain ⟨hfirst, hrest⟩ := pairwise_cons.mp h
      rw [putPair]
      cases hcompare : compare pair.1 key with
      | lt =>
          rw [filter_cons_of_pos (by simp [hcompare]), length_cons,
            insertIdx_succ_cons,
            ih hrest fun other hother => habsent other (mem_cons_of_mem _ hother)]
      | eq => exact absurd hcompare (habsent pair mem_cons_self)
      | gt =>
          have hnone : (pair :: rest).filter (fun pair => compare pair.1 key == .lt) = [] := by
            rw [filter_eq_nil_iff]
            intro other hother hbelow
            have hkey : compare key pair.1 = .lt := lt_of_gt hcompare
            have hlt : compare other.1 key = .lt := by simpa using hbelow
            rcases mem_cons.mp hother with rfl | hother
            · rw [hcompare] at hlt
              cases hlt
            · have habove := lt_trans hkey (hfirst other hother)
              rw [gt_of_lt habove] at hlt
              cases hlt
          rw [hnone]
          rfl

theorem putPair_getElem {index : Nat} (hindex : index < pairs.length) :
    putPair compare pairs[index].1 value pairs =
      pairs.modify index fun pair => (pair.1, value) := by
  obtain ⟨hsplit, hbelow, -⟩ := h.around hindex
  rw [modify_eq_take_cons_drop hindex]
  calc putPair compare pairs[index].1 value pairs
      = putPair compare pairs[index].1 value
          (pairs.take index ++ pairs[index] :: pairs.drop (index + 1)) := congrArg _ hsplit
    _ = _ := putPair_match hbelow Std.ReflCmp.compare_self

theorem erasePair_getElem {index : Nat}
    (hindex : index < pairs.length) :
    erasePair compare pairs[index].1 pairs = pairs.eraseIdx index := by
  obtain ⟨hsplit, hbelow, habove⟩ := h.around hindex
  rw [eraseIdx_eq_take_drop_succ]
  refine (congrArg (erasePair compare pairs[index].1) hsplit).trans
    (erasePair_match (fun pair hpair => ?_) Std.ReflCmp.compare_self fun pair hpair => ?_)
  · rw [hbelow pair hpair]
    decide
  · rw [habove pair hpair]
    decide

/-- Every pair put into a list keeps it sorted. -/
theorem StrictlySorted.putPair :
    StrictlySorted compare Prod.fst (putPair compare key value pairs) := by
  induction pairs with
  | nil => exact pairwise_singleton _ _
  | cons pair rest ih =>
      obtain ⟨hfirst, hrest⟩ := pairwise_cons.mp h
      rw [Foundation.putPair]
      cases hcompare : compare pair.1 key with
      | lt =>
          refine pairwise_cons.mpr ⟨fun other hother => ?_, ih hrest⟩
          rcases mem_putPair hother with heq | ⟨stored, hstored, heq⟩
          · rw [heq]
            exact hcompare
          · rw [← heq]
            exact hfirst stored hstored
      | eq => exact pairwise_cons.mpr ⟨hfirst, hrest⟩
      | gt =>
          have hlt := lt_of_gt hcompare
          refine pairwise_cons.mpr ⟨fun other hother => ?_, h⟩
          rcases mem_cons.mp hother with rfl | hother
          · exact hlt
          · exact lt_trans hlt (hfirst other hother)

end

/-- What a put changes: the slot of its key. -/
theorem findKey_putPair (pairs : List (κ × ν)) (target : κ)
    (h : StrictlySorted compare Prod.fst pairs) :
    findKey compare Prod.fst target (putPair compare key value pairs) =
      if compare key target = .eq then putSlot (findKey compare Prod.fst target pairs) (key, value)
      else
        findKey compare Prod.fst target pairs := by
  induction pairs with
  | nil =>
      rw [putPair, findKey, findKey]
      by_cases heq : compare key target = .eq
      · simp [heq, putSlot]
      · simp [heq]
  | cons pair rest ih =>
      obtain ⟨hfirst, hrest⟩ := pairwise_cons.mp h
      have hcons : ∀ (first : κ × ν) (items : List (κ × ν)),
          findKey compare Prod.fst target (first :: items) =
            if compare first.1 target = .eq then some first
            else findKey compare Prod.fst target items := by
        intro first items
        rw [findKey, List.find?_cons]
        by_cases heq : compare first.1 target = .eq
        · simp [heq]
        · rw [if_neg heq, beq_false_of_ne heq]
          rfl
      rw [putPair]
      cases hcompare : compare pair.1 key with
      | lt =>
          simp only
          rw [hcons, hcons, ih hrest]
          by_cases heq : compare key target = .eq
          · have hne : ¬ compare pair.1 target = .eq := by
              rw [← congr_right heq, hcompare]
              decide
            rw [if_neg hne, if_neg hne]
          · rw [if_neg heq, if_neg heq]
      | eq =>
          simp only
          rw [hcons, hcons, congr_left hcompare]
          split
          · rfl
          · rfl
      | gt =>
          simp only
          rw [hcons, hcons]
          by_cases heq : compare key target = .eq
          · have habove : ∀ item ∈ pair :: rest, compare item.1 target ≠ .eq := by
              have hgt : compare target pair.1 = .lt := by
                rw [← congr_left heq]
                exact lt_of_gt hcompare
              intro item hitem heq'
              have hlt : compare target item.1 = .lt := by
                rcases mem_cons.mp hitem with rfl | hitem
                · exact hgt
                · exact lt_trans hgt (hfirst item hitem)
              rw [eq_symm heq'] at hlt
              cases hlt
            have hnone := findKey_eq_none.mpr habove
            rw [hcons] at hnone
            rw [if_pos heq, if_pos heq, hnone]
            rfl
          · rw [if_neg heq, if_neg heq]

theorem putAll_sorted (source : List (κ × ν)) :
    StrictlySorted compare Prod.fst (putAll compare source) := by
  have hfold : ∀ (source pairs : List (κ × ν)), StrictlySorted compare Prod.fst pairs →
      StrictlySorted compare Prod.fst
        (source.foldl (fun pairs pair => putPair compare pair.1 pair.2 pairs) pairs) := by
    intro source
    induction source with
    | nil => exact fun _ h => h
    | cons pair source ih => exact fun _ h => ih _ h.putPair
  exact hfold source [] .nil

/-- The slot of a key after putting a whole list. -/
theorem findKey_putAll (source : List (κ × ν)) (target : κ) :
    findKey compare Prod.fst target (putAll compare source) =
      (source.filter fun pair => compare pair.1 target == .eq).foldl putSlot none := by
  have hfold : ∀ (source pairs : List (κ × ν)), StrictlySorted compare Prod.fst pairs →
      findKey compare Prod.fst target
          (source.foldl (fun pairs pair => putPair compare pair.1 pair.2 pairs) pairs) =
        (source.filter fun pair => compare pair.1 target == .eq).foldl putSlot
          (findKey compare Prod.fst target pairs) := by
    intro source
    induction source with
    | nil => exact fun _ _ => rfl
    | cons pair source ih =>
        intro pairs h
        rw [foldl_cons, ih _ h.putPair, findKey_putPair pairs target h]
        by_cases heq : compare pair.1 target = .eq
        · rw [if_pos heq, filter_cons_of_pos (by simp [heq]), foldl_cons]
        · rw [if_neg heq, filter_cons_of_neg (by simp [heq])]
  exact hfold source [] .nil

end Put

end Durable7.Foundation
