import Mathlib.Order.Basic
import Mathlib.Data.List.Pairwise
import Mathlib.Data.List.Perm.Basic
import Mathlib.Algebra.Ring.Nat
import Mathlib.Algebra.Ring.Int.Defs

/-!
# Searching comparer-ordered lists

A search compares a fixed probe with the items of a list.  Only the resulting
orderings matter, so a probe is a function `α → Ordering`, and a list is
searchable when the orderings run `lt … lt [eq] gt … gt`.  Under a total
comparer every strictly sorted list is searchable by every key.
-/

namespace Durable7.Foundation

open List

section

universe u v

variable {α : Type u} {κ : Type v}

def StrictlySorted (compare : κ → κ → Ordering) (key : α → κ) (items : List α) : Prop :=
  items.Pairwise fun before after => compare (key before) (key after) = .lt

def Searchable (probe : α → Ordering) (items : List α) : Prop :=
  items.Pairwise fun before after => probe before ≠ .lt → probe after = .gt

variable {items : List α}

theorem StrictlySorted.searchable {compare : κ → κ → Ordering} [Std.TransCmp compare] {key : α → κ}
    (h : StrictlySorted compare key items) (target : κ) :
    Searchable (fun item => compare (key item) target) items := by
  refine h.imp fun {before after} hlt hge => ?_
  have hle : (compare target (key before)).isLE := by
    rw [← Std.OrientedCmp.isGE_iff_isLE]
    cases hcmp : compare (key before) target <;> simp_all
  exact Std.OrientedCmp.gt_of_lt (Std.TransCmp.lt_of_isLE_of_lt hle hlt)

variable {probe : α → Ordering}

section

variable {below above : List α} {item : α} (h : Searchable probe (below ++ item :: above))
include h

/-- In front of a match everything is below the probe. -/
theorem Searchable.below_of_match (hitem : probe item = .eq) :
    ∀ other ∈ below, probe other = .lt := by
  intro other hother
  rw [Searchable, pairwise_append] at h
  by_contra hne
  have hgt := h.2.2 other hother item (by simp) hne
  rw [hitem] at hgt
  cases hgt

/-- Behind a match everything is above the probe. -/
theorem Searchable.above_of_match (hitem : probe item = .eq) :
    ∀ other ∈ above, probe other = .gt := by
  intro other hother
  rw [Searchable, pairwise_append, pairwise_cons] at h
  exact h.2.1.1 other hother (by simp [hitem])

end

/--
`position` is the number of items below the probe, and `found` tells whether
the item there is equal to it.
-/
structure IsPosition (probe : α → Ordering) (items : List α)
    (position : Nat) (found : Bool) : Prop where
  le : position ≤ items.length
  below : ∀ item ∈ items.take position, probe item = .lt
  notBelow : ∀ item ∈ items.drop position, probe item ≠ .lt
  found_iff : found = true ↔ ∃ item, items[position]? = some item ∧ probe item = .eq

variable {position : Nat}

theorem IsPosition.unique {position' : Nat} {found found' : Bool}
    (h : IsPosition probe items position found) (h' : IsPosition probe items position' found') :
    position = position' ∧ found = found' := by
  have aux : ∀ {p q : Nat} {f g : Bool}, IsPosition probe items p f →
      IsPosition probe items q g → ¬ p < q := by
    intro p q f g hp hq hlt
    have hpl : p < items.length := Nat.lt_of_lt_of_le hlt hq.le
    have hbelow : probe items[p] = .lt := hq.below _ (mem_take_iff_getElem.mpr ⟨p, by omega, rfl⟩)
    refine hp.notBelow items[p] ?_ hbelow
    exact mem_drop_iff_getElem.mpr ⟨0, by omega, by simp⟩
  have hposition : position = position' := by
    have h₁ := aux h h'
    have h₂ := aux h' h
    omega
  subst hposition
  refine ⟨rfl, ?_⟩
  rw [Bool.eq_iff_iff, h.found_iff, h'.found_iff]

theorem IsPosition.transport {β : Type*} {probe' : β → Ordering} {items' : List β}
    {found : Bool} (hmap : items.map probe = items'.map probe')
    (h : IsPosition probe items position found) :
    IsPosition probe' items' position found := by
  have hlen : items.length = items'.length := by simpa using congrArg List.length hmap
  have htake : ∀ ordering, (∀ item ∈ items.take position, probe item = ordering) →
      ∀ item ∈ items'.take position, probe' item = ordering := by
    intro ordering hall item hitem
    have hmem : probe' item ∈ (items.take position).map probe := by
      rw [map_take, hmap, ← map_take]
      exact mem_map_of_mem hitem
    obtain ⟨other, hother, heq⟩ := mem_map.mp hmem
    rw [← heq]
    exact hall other hother
  have hdrop : ∀ item ∈ items'.drop position, probe' item ≠ .lt := by
    intro item hitem
    have hmem : probe' item ∈ (items.drop position).map probe := by
      rw [map_drop, hmap, ← map_drop]
      exact mem_map_of_mem hitem
    obtain ⟨other, hother, heq⟩ := mem_map.mp hmem
    rw [← heq]
    exact h.notBelow other hother
  have hget : items[position]?.map probe = items'[position]?.map probe' := by
    rw [← List.getElem?_map, hmap, List.getElem?_map]
  refine ⟨hlen ▸ h.le, htake _ h.below, hdrop, ?_⟩
  rw [h.found_iff]
  cases hx : items[position]? <;> cases hy : items'[position]? <;> simp_all

theorem IsPosition.atPosition (h : IsPosition probe items position true) :
    ∃ item, items[position]? = some item ∧ probe item = .eq :=
  h.found_iff.mp rfl

/-- Past an unsuccessful position every item of a searchable list is above the probe. -/
theorem IsPosition.above (h : IsPosition probe items position false)
    (hsearch : Searchable probe items) :
    ∀ item ∈ items.drop position, probe item = .gt := by
  intro item hitem
  obtain ⟨offset, hoffset, rfl⟩ := mem_drop_iff_getElem.mp hitem
  have hfirst : position < items.length := by omega
  have hne : probe items[position] ≠ .eq := fun heq =>
    absurd (h.found_iff.mpr ⟨items[position], by simp [hfirst], heq⟩) (by simp)
  have hge : probe items[position] ≠ .lt :=
    h.notBelow _ (mem_drop_iff_getElem.mpr ⟨0, by omega, by simp⟩)
  cases offset with
  | zero => cases hcmp : probe items[position] <;> simp_all
  | succ offset =>
      exact (pairwise_iff_getElem.mp hsearch) position
        (position + (offset + 1)) hfirst (by omega) (by omega) hge

/--
The lower-bound search of a sorted array: shrink `[low, high)` until it is
empty, moving `low` past every middle item below the probe.
-/
def binarySearch (probe : α → Ordering) (items : List α) (low high : Nat)
    (hhigh : high ≤ items.length) : Nat × Bool :=
  if h : low ≥ high then (low, (items[low]?.map probe) == some .eq)
  else
    let middle := (low + high) / 2
    have hmiddle : middle < items.length := by omega
    if probe items[middle] = .lt then binarySearch probe items (middle + 1) high hhigh
    else binarySearch probe items low middle (by omega)
termination_by high - low

theorem binarySearch_isPosition (hsearch : Searchable probe items) (low high : Nat)
    (hhigh : high ≤ items.length) (hlow : low ≤ high)
    (hbelow : ∀ item ∈ items.take low, probe item = .lt)
    (habove : ∀ item ∈ items.drop high, probe item ≠ .lt) :
    IsPosition probe items (binarySearch probe items low high hhigh).1
      (binarySearch probe items low high hhigh).2 := by
  induction low, high, hhigh using binarySearch.induct probe items with
  | case1 low high hhigh h =>
      rw [binarySearch, dif_pos h]
      have heq : low = high := by omega
      subst heq
      refine ⟨hhigh, hbelow, habove, ?_⟩
      cases hget : items[low]? <;> simp
  | case2 low high hhigh h middle hmiddle hlt ih =>
      rw [binarySearch, dif_neg h]
      simp only
      rw [if_pos hlt]
      refine ih (by omega) ?_ habove
      intro item hitem
      obtain ⟨index, hindex, rfl⟩ := mem_take_iff_getElem.mp hitem
      by_contra hne
      have hother : index ≠ middle := by
        rintro rfl
        exact hne hlt
      have hgt := (pairwise_iff_getElem.mp hsearch) index middle
        (by omega) (by omega) (by omega) hne
      rw [hlt] at hgt
      cases hgt
  | case3 low high hhigh h middle hmiddle hge ih =>
      rw [binarySearch, dif_neg h]
      simp only
      rw [if_neg hge]
      refine ih (by omega) hbelow ?_
      intro item hitem
      obtain ⟨offset, hoffset, rfl⟩ := mem_drop_iff_getElem.mp hitem
      cases offset with
      | zero => exact hge
      | succ offset =>
          have hgt := (pairwise_iff_getElem.mp hsearch) middle
            (middle + (offset + 1)) (by omega) (by omega) (by omega) hge
          rw [hgt]
          simp

end

/-!
## Looking keys up in comparer-ordered lists

A strictly sorted list holds at most one item for every key of the comparer.  It
is determined by what it holds, and taking the item of its least key off its
front changes nothing at greater keys.
-/

open Std.TransCmp Std.OrientedCmp

universe u v w

variable {α : Type u} {κ : Type v} {β : Type w}

/-- The first item whose key is equivalent to the target. -/
def findKey (compare : κ → κ → Ordering) (key : α → κ) (target : κ) (items : List α) : Option α :=
  items.find? fun item => compare (key item) target == .eq

variable {target : κ} {item : α} {left : List α}

section Find

variable {compare : κ → κ → Ordering} {key : α → κ} {items : List α}

theorem findKey_eq_none :
    findKey compare key target items = none ↔ ∀ item ∈ items, compare (key item) target ≠ .eq := by
  simp [findKey]

theorem findKey_mem (h : findKey compare key target items = some item) :
    item ∈ items ∧ compare (key item) target = .eq :=
  ⟨mem_of_find?_eq_some h, by simpa using List.find?_some h⟩

theorem findKey_map {f : β → α} {source : List β} :
    findKey compare key target (source.map f) =
      (findKey compare (fun item => key (f item)) target source).map f := by
  rw [findKey, List.find?_map]
  rfl

theorem findKey_append {back : List α} :
    findKey compare key target (items ++ back) =
      (findKey compare key target items).or (findKey compare key target back) := by
  simp [findKey, List.find?_append]

/-- Items in front that are not at the target do not matter. -/
theorem findKey_append_of_ne {back : List α} (h : ∀ item ∈ items, compare (key item) target ≠ .eq) :
    findKey compare key target (items ++ back) = findKey compare key target back := by
  rw [findKey_append, findKey_eq_none.mpr h, Option.none_or]

variable [Std.TransCmp compare]

theorem findKey_congr {other : κ} (h : compare target other = .eq) :
    findKey compare key target items = findKey compare key other items := by
  rw [findKey, findKey]
  congr 1
  funext item
  rw [congr_right h]

namespace StrictlySorted

section

variable (h : StrictlySorted compare key items)
include h

/-- Two items of a sorted list whose keys are equivalent are the same. -/
theorem eq_of_compare {other : α} (hitem : item ∈ items)
    (hother : other ∈ items) (heq : compare (key item) (key other) = .eq) : item = other := by
  have hne : items.Pairwise fun before after => compare (key before) (key after) ≠ .eq :=
    h.imp fun hlt heq => by rw [hlt] at heq; cases heq
  have : Std.Symm fun before after : α => compare (key before) (key after) ≠ .eq :=
    ⟨fun _ _ hne heq => hne (eq_symm heq)⟩
  by_contra hdifferent
  exact hne.forall hitem hother hdifferent heq

theorem findKey_eq_some :
    findKey compare key target items = some item ↔
      item ∈ items ∧ compare (key item) target = .eq := by
  refine ⟨findKey_mem, fun ⟨hitem, heq⟩ => ?_⟩
  cases hfound : findKey compare key target items with
  | none => exact absurd heq (findKey_eq_none.mp hfound item hitem)
  | some other =>
      obtain ⟨hother, heq'⟩ := findKey_mem hfound
      rw [h.eq_of_compare hother hitem (eq_trans heq' (eq_symm heq))]

theorem nodup : items.Nodup := by
  apply h.imp
  intro before after hlt heq
  have hself : compare (key after) (key after) = .eq := Std.ReflCmp.compare_self
  rw [heq, hself] at hlt
  cases hlt

end

section

variable (hleft : StrictlySorted compare key left)
include hleft

/-- A sorted list is determined by its items. -/
theorem ext_mem {right : List α}
    (hright : StrictlySorted compare key right) (h : ∀ item, item ∈ left ↔ item ∈ right) :
    left = right := by
  have : Std.Antisymm fun before after : α => compare (key before) (key after) = .lt :=
    ⟨fun before after hlt hgt => by
      rw [gt_of_lt hlt] at hgt
      cases hgt⟩
  have hperm : left.Perm right := (perm_ext_iff_of_nodup hleft.nodup hright.nodup).mpr h
  exact hperm.eq_of_pairwise (fun _ _ _ _ hlt hgt => this.antisymm _ _ hlt hgt) hleft hright

/-- A sorted list is determined by what it holds at every key. -/
theorem ext {right : List α} (hright : StrictlySorted compare key right)
    (h : ∀ target, findKey compare key target left = findKey compare key target right) :
    left = right := by
  apply hleft.ext_mem hright
  intro item
  have hself : compare (key item) (key item) = .eq := Std.ReflCmp.compare_self
  have hiff : item ∈ left ∧ compare (key item) (key item) = .eq ↔
      item ∈ right ∧ compare (key item) (key item) = .eq := by
    rw [← hleft.findKey_eq_some, h, hright.findKey_eq_some]
  simpa [hself] using hiff

/-- Sorted lists that hold the same classes have them at the same places. -/
theorem forall₂ {right : List β} {other : β → κ} {same : α → β → Prop}
    (hright : StrictlySorted compare other right)
    (hsame : ∀ item target, same item target → compare (key item) (other target) = .eq)
    (hto : ∀ item ∈ left, ∃ target ∈ right, same item target)
    (hfrom : ∀ target ∈ right, ∃ item ∈ left, same item target) :
    List.Forall₂ same left right := by
  induction left generalizing right with
  | nil =>
      cases right with
      | nil => exact .nil
      | cons target right =>
          obtain ⟨item, hitem, -⟩ := hfrom target mem_cons_self
          cases hitem
  | cons item left ih =>
      cases right with
      | nil =>
          obtain ⟨target, htarget, -⟩ := hto item mem_cons_self
          cases htarget
      | cons target right =>
          obtain ⟨habove, hleft⟩ := pairwise_cons.mp hleft
          obtain ⟨hbeyond, hright⟩ := pairwise_cons.mp hright
          have hfirst : same item target := by
            obtain ⟨match₁, hmatch₁, hsame₁⟩ := hto item mem_cons_self
            obtain ⟨match₂, hmatch₂, hsame₂⟩ := hfrom target mem_cons_self
            rcases mem_cons.mp hmatch₁ with rfl | hlater
            · exact hsame₁
            rcases mem_cons.mp hmatch₂ with rfl | habove'
            · exact hsame₂
            have hlt : compare (other target) (key item) = .lt :=
              lt_of_lt_of_eq (hbeyond _ hlater) (eq_symm (hsame _ _ hsame₁))
            have hgt : compare (key item) (other target) = .lt :=
              lt_of_lt_of_eq (habove _ habove') (hsame _ _ hsame₂)
            rw [gt_of_lt hlt] at hgt
            cases hgt
          have hclass := hsame _ _ hfirst
          refine .cons hfirst (ih hleft hright ?_ ?_)
          · intro next hnext
            obtain ⟨found, hfound, hnextSame⟩ := hto next (mem_cons_of_mem _ hnext)
            rcases mem_cons.mp hfound with rfl | hfound
            · have hlt := lt_of_lt_of_eq (habove _ hnext) (hsame _ _ hnextSame)
              rw [hclass] at hlt
              cases hlt
            · exact ⟨found, hfound, hnextSame⟩
          · intro next hnext
            obtain ⟨found, hfound, hnextSame⟩ := hfrom next (mem_cons_of_mem _ hnext)
            rcases mem_cons.mp hfound with rfl | hfound
            · have hlt := lt_of_eq_of_lt hclass (hbeyond _ hnext)
              rw [hsame _ _ hnextSame] at hlt
              cases hlt
            · exact ⟨found, hfound, hnextSame⟩

end

end StrictlySorted

omit [Std.TransCmp compare] in
/-- A comparer relates any two keys one way or the other, as sorting asks. -/
theorem isLE_total [Std.OrientedCmp compare] (left right : κ) :
    ((compare left right).isLE || (compare right left).isLE) = true := by
  have hswap : compare right left = (compare left right).swap := Std.OrientedCmp.eq_swap
  rw [hswap]
  cases compare left right <;> rfl

section Table

variable {keys : List κ} {table : κ → Option α}
  (hkey : ∀ target item, table target = some item → compare (key item) target = .eq)

include hkey

/-- What a table holds at sorted keys is sorted. -/
theorem StrictlySorted.filterMap (h : StrictlySorted compare id keys) :
    StrictlySorted compare key (keys.filterMap table) := by
  refine List.Pairwise.filterMap _ (fun before after hlt item hitem other hother => ?_) h
  rw [congr_left (hkey before item hitem), congr_right (hkey after other hother)]
  exact hlt

/-- A table that respects the comparer is listed by any keys that cover it. -/
theorem findKey_filterMap (h : StrictlySorted compare id keys)
    (hcongr : ∀ target other, compare target other = .eq → table target = table other)
    (hcover : ∀ target item, table target = some item →
      ∃ listed ∈ keys, compare listed target = .eq) (target : κ) :
    findKey compare key target (keys.filterMap table) = table target := by
  cases hfound : table target with
  | none =>
      refine findKey_eq_none.mpr fun item hitem heq => ?_
      obtain ⟨listed, -, hlisted⟩ := mem_filterMap.mp hitem
      have hsame : compare listed target = .eq := eq_trans (eq_symm (hkey listed item hlisted)) heq
      rw [hcongr listed target hsame, hfound] at hlisted
      cases hlisted
  | some item =>
      obtain ⟨listed, hlisted, hsame⟩ := hcover target item hfound
      apply (h.filterMap hkey).findKey_eq_some.mpr
      refine ⟨mem_filterMap.mpr ⟨listed, hlisted, ?_⟩, hkey target item hfound⟩
      rw [hcongr listed target hsame, hfound]

end Table

end Find

end Durable7.Foundation
