import Mathlib.Data.List.Sort
import Mathlib.Data.List.Pairwise
import Mathlib.Data.Nat.Bitwise
import Mathlib.Algebra.Ring.Int.Defs

/-!
# Lists related item by item

Skipping items that contribute nothing, and moving between a relation on items
and the same relation on whole lists.
-/

namespace Durable7.Foundation

open List

section

universe u v

variable {α : Type u} {β : Type v}

variable {items : List α}

theorem flatMap_filter_of_skipped {keep : α → Bool} {f : α → List β}
    (h : ∀ item ∈ items, keep item = false → f item = []) :
    (items.filter keep).flatMap f = items.flatMap f := by
  induction items with
  | nil => rfl
  | cons item items ih =>
      have hrest := ih fun other hother => h other (mem_cons_of_mem _ hother)
      cases hkeep : keep item with
      | true => simp [hkeep, hrest]
      | false => simp [hkeep, hrest, h item mem_cons_self hkeep]

variable {relation : α → β → Prop} {targets : List β}

theorem forall₂_of_total (h : ∀ target ∈ targets, ∃ item, relation item target) :
    ∃ items, List.Forall₂ relation items targets := by
  induction targets with
  | nil => exact ⟨[], .nil⟩
  | cons target targets ih =>
      obtain ⟨item, hitem⟩ := h target mem_cons_self
      obtain ⟨items, hitems⟩ := ih fun other hother => h other (mem_cons_of_mem _ hother)
      exact ⟨item :: items, .cons hitem hitems⟩

theorem exists_of_forall₂ (h : List.Forall₂ relation items targets) {item : α}
    (hitem : item ∈ items) : ∃ target ∈ targets, relation item target := by
  induction h with
  | nil => simp at hitem
  | @cons first target items targets hfirst _ ih =>
      rcases mem_cons.mp hitem with rfl | hitem
      · exact ⟨target, mem_cons_self, hfirst⟩
      · obtain ⟨other, hother, hrelated⟩ := ih hitem
        exact ⟨other, mem_cons_of_mem _ hother, hrelated⟩

theorem pairwise_of_forall₂ {before : α → α → Prop} {after : β → β → Prop}
    (h : List.Forall₂ relation items targets) (hafter : targets.Pairwise after)
    (hbefore : ∀ first target second other, relation first target → relation second other →
      after target other → before first second) : items.Pairwise before := by
  induction h with
  | nil => exact .nil
  | @cons first target items targets hfirst hrest ih =>
      obtain ⟨htarget, htargets⟩ := pairwise_cons.mp hafter
      refine pairwise_cons.mpr ⟨fun second hsecond => ?_, ih htargets⟩
      obtain ⟨other, hother, hsame⟩ := exists_of_forall₂ hrest hsecond
      exact hbefore _ _ _ _ hfirst hsame (htarget other hother)

theorem merge_congr {r s : α → α → Bool} {left right : List α}
    (h : ∀ a ∈ left, ∀ b ∈ right, r a b = s a b) :
    List.merge left right r = List.merge left right s := by
  induction left generalizing right with
  | nil => rw [nil_merge, nil_merge]
  | cons a left ih =>
      induction right with
      | nil => rw [merge_right, merge_right]
      | cons b right ihr =>
          rw [cons_merge_cons, cons_merge_cons, ← h a mem_cons_self b mem_cons_self]
          split
          · rw [ih fun x hx y hy => h x (mem_cons_of_mem _ hx) y hy]
          · rw [ihr fun x hx y hy => h x hx y (mem_cons_of_mem _ hy)]

/-- A stable sort compares an item with later ones only. -/
theorem mergeSort_congr {r s : α → α → Bool} (h : items.Pairwise fun a b => r a b = s a b) :
    items.mergeSort r = items.mergeSort s := by
  induction hlength : items.length using Nat.strongRecOn generalizing items with
  | ind length ih =>
  match items with
  | [] => rw [mergeSort_nil, mergeSort_nil]
  | [a] => rw [mergeSort_singleton, mergeSort_singleton]
  | a :: b :: rest =>
      rw [List.mergeSort, List.mergeSort]
      have hparts := List.MergeSort.Internal.splitInTwo_fst_append_splitInTwo_snd
        ⟨a :: b :: rest, rfl⟩
      generalize List.MergeSort.Internal.splitInTwo ⟨a :: b :: rest, rfl⟩ = parts at hparts ⊢
      obtain ⟨⟨left, hleft⟩, right, hright⟩ := parts
      dsimp only at hparts ⊢
      rw [← hparts] at h
      obtain ⟨hfront, hback, hacross⟩ := pairwise_append.mp h
      rw [length_cons, length_cons] at hleft hright hlength
      rw [ih left.length (by omega) hfront rfl, ih right.length (by omega) hback rfl]
      refine merge_congr fun x hx y hy => hacross x ?_ y ?_
      · exact mem_mergeSort.mp hx
      · exact mem_mergeSort.mp hy

end

/-!
## Lines of a list

A list cut at every separator.  A line stands at its start, after as many separators as there
are lines before it, and the positions of a line are those with that many separators before.
-/

section

open Nat

variable {α : Type} [DecidableEq α]

structure LineAt (separator : α) (text : List α) (line start : Nat) (content : List α)
    (before after : List α) : Prop where
  text_eq : text = before ++ (content ++ after)
  length_eq : before.length = start
  count_eq : before.count separator = line
  opens : before = [] ∨ ∃ front, before = front ++ [separator]
  plain : separator ∉ content
  closes : after = [] ∨ ∃ rest, after = separator :: rest

theorem splitOn_cons_self (separator : α) (text : List α) :
    (separator :: text).splitOn separator = [] :: text.splitOn separator := by
  rw [splitOn_cons_eq_if_modifyHead, if_pos (beq_self_eq_true _)]

theorem splitOn_cons_ne {separator value : α} (hne : value ≠ separator) (text : List α) :
    (value :: text).splitOn separator = (text.splitOn separator).modifyHead (List.cons value) := by
  rw [splitOn_cons_eq_if_modifyHead, if_neg (mt beq_iff_eq.mp hne)]

section

variable (separator : α) (text : List α)

theorem length_splitOn :
    (text.splitOn separator).length = text.count separator + 1 := by
  induction text with
  | nil => rfl
  | cons value text ih =>
      by_cases hvalue : value = separator
      · rw [hvalue, splitOn_cons_self, length_cons, ih, count_cons_self]
      · rw [splitOn_cons_ne hvalue, length_modifyHead, ih, count_cons_of_ne hvalue]

/-- Every piece of the cut list is a line. -/
theorem splitOn_lineAt {line : Nat} {content : List α}
    (h : (text.splitOn separator)[line]? = some content) :
    ∃ start before after, LineAt separator text line start content before after := by
  induction text generalizing line content with
  | nil =>
      cases line with
      | zero =>
          obtain ⟨⟩ := h
          exact ⟨0, [], [], rfl, rfl, rfl, .inl rfl, not_mem_nil, .inl rfl⟩
      | succ line => exact nomatch h
  | cons value text ih =>
      by_cases hvalue : value = separator
      · rw [hvalue, splitOn_cons_self] at h
        cases line with
        | zero =>
            obtain ⟨⟩ := h
            exact ⟨0, [], value :: text, rfl, rfl, rfl, .inl rfl, not_mem_nil,
              .inr ⟨text, hvalue ▸ rfl⟩⟩
        | succ line =>
            obtain ⟨start, before, after, hline⟩ := ih h
            refine ⟨start + 1, value :: before, after, ?_, ?_, ?_, ?_, hline.plain, hline.closes⟩
            · rw [hline.text_eq, cons_append]
            · rw [length_cons, hline.length_eq]
            · rw [hvalue, count_cons_self, hline.count_eq]
            · rcases hline.opens with rfl | ⟨front, rfl⟩
              · exact .inr ⟨[], hvalue ▸ rfl⟩
              · exact .inr ⟨value :: front, rfl⟩
      · rw [splitOn_cons_ne hvalue] at h
        cases line with
        | zero =>
            rw [List.getElem?_modifyHead_zero, Option.map_eq_some_iff] at h
            obtain ⟨content, hcontent, rfl⟩ := h
            obtain ⟨start, before, after, hline⟩ := ih hcontent
            have hbefore : before = [] := by
              rcases hline.opens with hnil | ⟨front, hfront⟩
              · exact hnil
              · have hcount := hline.count_eq
                rw [hfront, count_append, count_singleton_self] at hcount
                exact absurd hcount (succ_ne_zero _)
            refine ⟨0, [], after, ?_, rfl, rfl, .inl rfl, ?_, hline.closes⟩
            · rw [hline.text_eq, hbefore]
              rfl
            · exact not_mem_cons_of_ne_of_not_mem (Ne.symm hvalue) hline.plain
        | succ line =>
            rw [List.getElem?_modifyHead_succ] at h
            obtain ⟨start, before, after, hline⟩ := ih h
            refine ⟨start + 1, value :: before, after, ?_, ?_, ?_, ?_, hline.plain, hline.closes⟩
            · rw [hline.text_eq, cons_append]
            · rw [length_cons, hline.length_eq]
            · rw [count_cons_of_ne hvalue, hline.count_eq]
            · rcases hline.opens with rfl | ⟨front, rfl⟩
              · exact absurd hline.count_eq (succ_ne_zero _).symm
              · exact .inr ⟨value :: front, rfl⟩

theorem count_take_le {shorter longer : Nat}
    (hle : shorter ≤ longer) :
    (text.take shorter).count separator ≤ (text.take longer).count separator :=
  (take_prefix_take_left hle).sublist.count_le separator

theorem count_take_succ (position : Nat) :
    (text.take (position + 1)).count separator ≤ (text.take position).count separator + 1 := by
  rw [take_add_one, count_append]
  refine Nat.add_le_add_left (Nat.le_trans count_le_length ?_) _
  cases text[position]? with
  | none => exact Nat.zero_le 1
  | some value => exact Nat.le_refl 1

end

section LineAt

variable {separator : α} {text content before after : List α} {line start : Nat}
  (h : LineAt separator text line start content before after)

include h

theorem LineAt.end_le : start + content.length ≤ text.length := by
  rw [h.text_eq, length_append, length_append, h.length_eq]
  omega

theorem LineAt.content_eq : (text.drop start).take content.length = content := by
  rw [h.text_eq, ← h.length_eq, drop_left, take_left]

/-- The positions of a line, its end included. -/
theorem LineAt.count_take_iff {position : Nat} (hposition : position ≤ text.length) :
    (text.take position).count separator = line ↔
      start ≤ position ∧ position ≤ start + content.length := by
  have hstart : (text.take start).count separator = line := by
    rw [h.text_eq, ← h.length_eq, take_left, h.count_eq]
  have hend : (text.take (start + content.length)).count separator = line := by
    rw [h.text_eq, ← h.length_eq, take_length_add_append, take_left, count_append,
      h.count_eq, count_eq_zero.mpr h.plain, add_zero]
  constructor
  · intro hcount
    constructor
    · by_contra hlt
      rcases h.opens with hnil | ⟨front, hfront⟩
      · have hlength := h.length_eq
        rw [hnil] at hlength
        exact hlt (hlength ▸ zero_le _)
      · have hlength := h.length_eq
        have hline := h.count_eq
        have hfrontCount : (text.take front.length).count separator = front.count separator := by
          rw [h.text_eq, hfront, append_assoc, take_left]
        rw [hfront, length_append, length_singleton] at hlength
        rw [hfront, count_append, count_singleton_self] at hline
        have hle := count_take_le separator text (show position ≤ front.length by omega)
        omega
    · by_contra hlt
      rcases h.closes with hnil | ⟨rest, hrest⟩
      · have htext := h.text_eq
        rw [hnil, append_nil] at htext
        rw [htext, length_append, h.length_eq] at hposition
        exact hlt hposition
      · have hle := count_take_le separator text (show start + (content.length + 1) ≤ position by
          omega)
        have hreached : (text.take (start + (content.length + 1))).count separator = line + 1 := by
          rw [h.text_eq, ← h.length_eq, take_length_add_append, hrest,
            take_length_add_append, count_append, count_append, h.count_eq,
            count_eq_zero.mpr h.plain, zero_add]
          exact congrArg (line + ·) count_singleton_self
        omega
  · rintro ⟨hlow, hhigh⟩
    have hfirst := count_take_le separator text hlow
    have hsecond := count_take_le separator text hhigh
    omega

/-- A line with a line after it ends before the separator that starts that one. -/
theorem LineAt.next {nextStart : Nat} {nextContent nextBefore nextAfter : List α}
    (hnext : LineAt separator text (line + 1) nextStart nextContent nextBefore nextAfter) :
    nextStart = start + content.length + 1 := by
  have hend := h.end_le
  have hnextEnd := hnext.end_le
  have hlast := (h.count_take_iff hend).mpr ⟨le_add_right _ _, le_refl _⟩
  have hfirst := (hnext.count_take_iff (le_of_add_right_le hnextEnd)).mpr
    ⟨le_refl _, le_add_right _ _⟩
  have hlt : start + content.length < nextStart := by
    by_contra hle
    have hmono := count_take_le separator text (not_lt.mp hle)
    omega
  have hbefore :=
    (hnext.count_take_iff (show nextStart - 1 ≤ text.length by omega)).not.mpr (by omega)
  have hstep := count_take_succ separator text (nextStart - 1)
  have hlow := count_take_le separator text (show start + content.length ≤ nextStart - 1 by omega)
  rw [show nextStart - 1 + 1 = nextStart by omega, hfirst] at hstep
  have hhigh := count_take_le separator text (show nextStart - 1 ≤ nextStart by omega)
  have hsame := (h.count_take_iff (show nextStart - 1 ≤ text.length by omega)).mp (by omega)
  omega

end LineAt

end

/-!
## Places of set bits

The places of the set bits of a word, in ascending order.  Clearing the lowest set bit
takes the first place away.
-/

open BitVec Bool Nat

variable {w : Nat} {bits other : BitVec w} {place : Nat}

def places (bits : BitVec w) : List Nat := (List.range w).filter fun place => bits.getLsbD place

theorem mem_places : place ∈ places bits ↔ bits.getLsbD place = true := by
  rw [places, mem_filter, mem_range]
  exact and_iff_right_of_imp lt_of_getLsbD

theorem pairwise_places (bits : BitVec w) : (places bits).Pairwise (· < ·) :=
  pairwise_lt_range.filter _

theorem length_places (bits : BitVec w) : (places bits).length = bits.cpop.toNat := by
  have hcount : ∀ bound, bits.cpopNatRec bound 0 =
      ((List.range bound).filter fun place => bits.getLsbD place).length := by
    intro bound
    induction bound with
    | zero => rfl
    | succ bound ih =>
        rw [cpopNatRec_succ, cpopNatRec_eq, ih, range_succ, filter_append, length_append, zero_add]
        congr 1
        cases hbit : bits.getLsbD bound <;> simp [hbit]
  rw [toNat_cpop, hcount, places]

theorem places_eq {listed : List Nat} (hsorted : listed.Pairwise (· < ·))
    (hmem : ∀ place, place ∈ listed ↔ bits.getLsbD place = true) : places bits = listed := by
  have hperm : (places bits).Perm listed := by
    rw [perm_ext_iff_of_nodup ((pairwise_places bits).imp ne_of_lt) (hsorted.imp ne_of_lt)]
    intro place
    rw [mem_places, hmem]
  exact hperm.eq_of_pairwise (fun _ _ _ _ hlt hgt => absurd hlt (lt_asymm hgt))
    (pairwise_places bits) hsorted

theorem places_eq_nil : places bits = [] ↔ bits = 0#w := by
  constructor
  · intro hnil
    apply eq_of_getLsbD_eq
    intro place _
    rw [getLsbD_zero, ← not_eq_true, ← mem_places, hnil]
    exact not_mem_nil
  · rintro rfl
    apply places_eq .nil
    intro place
    rw [getLsbD_zero]
    exact iff_of_false not_mem_nil false_ne_true

theorem places_and_of_lt {mask : BitVec w} {bound : Nat}
    (hmask : ∀ place < w, mask.getLsbD place = decide (place ≤ bound)) :
    places (bits &&& mask) = (places bits).filter fun place => decide (place ≤ bound) := by
  rw [places, places, filter_filter]
  apply filter_congr
  intro place hplace
  rw [getLsbD_and, hmask place (mem_range.mp hplace), Bool.and_comm]

theorem toNat_sub_one (hpos : 0 < bits.toNat) : (bits - 1#w).toNat = bits.toNat - 1 := by
  have hone : (1#w).toNat = 1 := mod_eq_of_lt (lt_of_le_of_lt (succ_le_of_lt hpos) bits.isLt)
  rw [toNat_sub_of_le (le_def.mpr (by rw [hone]; exact hpos)), hone]

theorem getLsbD_two_pow_sub_one {bound : Nat} (hbound : bound < w) :
    (twoPow w bound - 1#w).getLsbD place = decide (place < bound) := by
  have hword : (twoPow w bound).toNat = 2 ^ bound := by
    rw [toNat_twoPow, Nat.mod_eq_of_lt (Nat.pow_lt_pow_right Nat.one_lt_two hbound)]
  rw [getLsbD, toNat_sub_one (hword ▸ Nat.two_pow_pos bound), hword, testBit_two_pow_sub_one]

section Lowest

section

variable {value lowest : Nat} (hset : value.testBit lowest = true)
  (hclear : ∀ place < lowest, value.testBit place = false)
include hset hclear

/-- A number above its lowest set bit. -/
theorem eq_of_lowest :
    value = 2 ^ (lowest + 1) * (value / 2 ^ (lowest + 1)) + 2 ^ lowest := by
  have hmod : value % 2 ^ (lowest + 1) = 2 ^ lowest := by
    apply eq_of_testBit_eq
    intro place
    rw [testBit_mod_two_pow, testBit_two_pow]
    rcases Nat.lt_trichotomy place lowest with hlt | rfl | hgt
    · rw [hclear place hlt, Bool.and_false, decide_eq_false (by omega)]
    · rw [hset, decide_eq_true (by omega), decide_eq_true rfl]
      rfl
    · rw [decide_eq_false (by omega), decide_eq_false (by omega), Bool.false_and]
  rw [← hmod, div_add_mod]

theorem testBit_sub_one (place : Nat) :
    (value.testBit place && (value - 1).testBit place) =
      (value.testBit place && decide (place ≠ lowest)) := by
  have hvalue := eq_of_lowest hset hclear
  generalize value / 2 ^ (lowest + 1) = above at hvalue
  have hpos : 0 < 2 ^ lowest := Nat.two_pow_pos lowest
  have hdouble : 2 ^ (lowest + 1) = 2 ^ lowest * 2 := pow_succ _ _
  have hbefore : value - 1 = 2 ^ (lowest + 1) * above + (2 ^ lowest - 1) := by omega
  rcases Nat.lt_trichotomy place lowest with hlt | rfl | hgt
  · rw [hclear place hlt, Bool.false_and, Bool.false_and]
  · rw [hset, hbefore, testBit_two_pow_mul_add _ (by omega), if_pos (by omega),
      testBit_two_pow_sub_one]
    simp
  · rw [hbefore, hvalue, testBit_two_pow_mul_add _ (by omega), if_neg (by omega),
      testBit_two_pow_mul_add _ (by omega), if_neg (by omega), Bool.and_self,
      decide_eq_true (by omega), Bool.and_true]

end

theorem getLsbD_clear_lowest (hbits : bits ≠ 0#w) (place : Nat) :
    (bits &&& (bits - 1#w)).getLsbD place =
      (bits.getLsbD place && decide (place ≠ bits.ctz.toNat)) := by
  have hpos : 0 < bits.toNat := Nat.pos_of_ne_zero fun hzero => hbits (eq_of_toNat_eq hzero)
  rw [getLsbD_and, getLsbD, getLsbD, toNat_sub_one hpos]
  exact testBit_sub_one (getLsbD_true_ctz_of_ne_zero hbits)
    (fun _ hlt => getLsbD_false_of_lt_ctz hlt) place

theorem clear_lowest_lt (hbits : bits ≠ 0#w) : (bits &&& (bits - 1#w)).toNat < bits.toNat := by
  have hpos : 0 < bits.toNat := Nat.pos_of_ne_zero fun hzero => hbits (eq_of_toNat_eq hzero)
  have hle : (bits &&& (bits - 1#w)).toNat ≤ (bits - 1#w).toNat := by
    rw [toNat_and]
    exact and_le_right
  rw [toNat_sub_one hpos] at hle
  omega

theorem places_cons (hbits : bits ≠ 0#w) :
    places bits = bits.ctz.toNat :: places (bits &&& (bits - 1#w)) := by
  apply places_eq
  · refine pairwise_cons.mpr ⟨fun place hplace => ?_, pairwise_places _⟩
    rw [mem_places, getLsbD_clear_lowest hbits, and_eq_true, decide_eq_true_iff] at hplace
    apply lt_of_le_of_ne _ hplace.2.symm
    by_contra hlt
    rw [getLsbD_false_of_lt_ctz (Nat.lt_of_not_le hlt)] at hplace
    exact false_ne_true hplace.1
  · intro place
    rw [mem_cons, mem_places, getLsbD_clear_lowest hbits, and_eq_true, decide_eq_true_iff]
    constructor
    · rintro (rfl | ⟨hset, -⟩)
      · exact getLsbD_true_ctz_of_ne_zero hbits
      · exact hset
    · intro hset
      by_cases heq : place = bits.ctz.toNat
      · exact .inl heq
      · exact .inr ⟨hset, heq⟩

end Lowest

end Durable7.Foundation
