import Durable7.Foundation.Classes

/-!
# Numbers of occurrences by classes of keys

Two lists of numbers are combined class by class.  A class is named by its first key in both.
-/

namespace Durable7.Foundation

open List

universe u

variable {κ : Type u}

/-- The first entry of every class. -/
def representatives {ν : Type} (same : κ → κ → Bool) : List (κ × ν) → List (κ × ν)
  | [] => []
  | entry :: entries =>
      entry :: (representatives same entries).filter fun other => !same entry.1 other.1

def occurrences (same : κ → κ → Bool) (key : κ) (entries : List (κ × Nat)) : Nat :=
  ((entries.filter fun entry => same key entry.1).map Prod.snd).sum

def totalOf (entries : List (κ × Nat)) : Nat := (entries.map Prod.snd).sum

/-- An entry that occurs at all. -/
def occurring (key : κ) : Nat → Option (κ × Nat)
  | 0 => none
  | count + 1 => some (key, count + 1)

/-- The classes of both lists with a number from their numbers in each. -/
def pointwise (same : κ → κ → Bool) (combine : Nat → Nat → Nat) (left right : List (κ × Nat)) :
    List (κ × Nat) :=
  (representatives same (left ++ right)).filterMap fun entry =>
    occurring entry.1 (combine (occurrences same entry.1 left) (occurrences same entry.1 right))

def otherClasses (same : κ → κ → Bool) (key : κ) (entries : List (κ × Nat)) : List (κ × Nat) :=
  entries.filter fun entry => !same key entry.1

/-- The number of an entry that may be absent. -/
def numberAt (entry : Option (κ × Nat)) : Nat := (entry.map Prod.snd).getD 0

section

variable {key : κ} {count : Nat} {entry : κ × Nat} (h : occurring key count = some entry)
include h

theorem occurring_key : entry = (key, count) := by
  cases count with
  | zero => cases h
  | succ count => exact (Option.some.inj h).symm

theorem occurring_pos : 0 < entry.2 := by
  cases count with
  | zero => cases h
  | succ count =>
      rw [← Option.some.inj h]
      exact Nat.succ_pos count

end

theorem occurring_of_pos {key : κ} {count : Nat} (h : 0 < count) :
    occurring key count = some (key, count) := by
  cases count with
  | zero => cases h
  | succ count => rfl

@[simp] theorem numberAt_occurring (key : κ) (count : Nat) :
    numberAt (occurring key count) = count := by
  cases count <;> rfl

@[simp] theorem numberAt_some (entry : κ × Nat) : numberAt (some entry) = entry.2 := rfl

theorem totalOf_append (left right : List (κ × Nat)) :
    totalOf (left ++ right) = totalOf left + totalOf right := by
  simp [totalOf]

theorem totalOf_cons (entry : κ × Nat) (entries : List (κ × Nat)) :
    totalOf (entry :: entries) = entry.2 + totalOf entries := by
  simp [totalOf]

theorem totalOf_perm {left right : List (κ × Nat)} (h : left.Perm right) :
    totalOf left = totalOf right :=
  (h.map Prod.snd).sum_nat

section Counting

variable {same : κ → κ → Bool} {key other : κ} {entry : κ × Nat} {entries others : List (κ × Nat)}

theorem occurrences_cons : occurrences same key (entry :: entries) =
    (if same key entry.1 = true then entry.2 else 0) + occurrences same key entries := by
  unfold occurrences
  by_cases hkey : same key entry.1 = true
  · simp [hkey]
  · simp [hkey]

theorem occurrences_append : occurrences same key (entries ++ others) =
    occurrences same key entries + occurrences same key others := by
  simp [occurrences]

theorem le_occurrences (hentry : entry ∈ entries) (hkey : same key entry.1 = true) :
    entry.2 ≤ occurrences same key entries := by
  induction entries with
  | nil => cases hentry
  | cons first rest ih =>
      rw [occurrences_cons]
      rcases mem_cons.mp hentry with rfl | hentry
      · rw [if_pos hkey]
        exact Nat.le_add_right _ _
      · exact Nat.le_add_left_of_le (ih hentry)

theorem le_totalOf (hentry : entry ∈ entries) : entry.2 ≤ totalOf entries := by
  induction entries with
  | nil => cases hentry
  | cons first rest ih =>
      rw [totalOf_cons]
      rcases mem_cons.mp hentry with rfl | hentry
      · exact Nat.le_add_right _ _
      · exact Nat.le_add_left_of_le (ih hentry)

theorem occurrences_of_absent (h : entryAt same key entries = none) :
    occurrences same key entries = 0 := by
  have hnone := entryAt_eq_none.mp h
  rw [occurrences, filter_eq_nil_iff.mpr]
  · rfl
  · intro found hfound
    rw [hnone found hfound]
    exact Bool.false_ne_true

end Counting

section Classes

variable {same : κ → κ → Bool} {key other : κ} {entry : κ × Nat}
  {entries others left right : List (κ × Nat)}
  (hsame : Equivalence fun left right => same left right = true)

include hsame

theorem occurrences_congr (h : same key other = true) (entries : List (κ × Nat)) :
    occurrences same key entries = occurrences same other entries := by
  unfold occurrences
  congr 3
  funext entry
  exact same_congr hsame h entry.1

theorem occurrences_of_distinct (hdistinct : Distinct same entries) (key : κ) :
    occurrences same key entries = numberAt (entryAt same key entries) := by
  induction entries with
  | nil => rfl
  | cons first rest ih =>
      obtain ⟨hfirst, hrest⟩ := pairwise_cons.mp hdistinct
      rw [occurrences_cons, entryAt_cons]
      by_cases hkey : same key first.1 = true
      · have habsent : entryAt same key rest = none := by
          rw [entryAt_congr hsame hkey]
          exact entryAt_eq_none.mpr hfirst
        rw [if_pos hkey, if_pos hkey, occurrences_of_absent habsent, Nat.add_zero, numberAt_some]
      · rw [if_neg hkey, if_neg hkey, ih hrest, Nat.zero_add]

/-! ## Representatives -/

theorem entryAt_representatives {ν : Type} (entries : List (κ × ν)) (key : κ) :
    entryAt same key (representatives same entries) = entryAt same key entries := by
  induction entries with
  | nil => rfl
  | cons first rest ih =>
      rw [representatives, entryAt_cons, entryAt_cons, ← ih]
      by_cases hkey : same key first.1 = true
      · rw [if_pos hkey, if_pos hkey]
      · rw [if_neg hkey, if_neg hkey, entryAt, entryAt, List.find?_filter]
        congr 1
        funext entry
        by_cases hentry : same key entry.1 = true
        · have hother : same first.1 entry.1 = false := by
            rw [same_comm hsame, ← same_congr hsame hentry]
            simpa using hkey
          simp [hother]
        · simp [hentry]

omit hsame in
theorem distinct_representatives {ν : Type} (entries : List (κ × ν)) :
    Distinct same (representatives same entries) := by
  induction entries with
  | nil => exact List.Pairwise.nil
  | cons first rest ih =>
      refine pairwise_cons.mpr ⟨?_, ih.filter _⟩
      intro entry hentry
      simpa using (mem_filter.mp hentry).2

omit hsame in
theorem distinct_pointwise (combine : Nat → Nat → Nat) (left right : List (κ × Nat)) :
    Distinct same (pointwise same combine left right) := by
  apply Distinct.selected _ (distinct_representatives (left ++ right))
  intro entry kept hkept
  rw [occurring_key hkept]

theorem entryAt_pointwise (combine : Nat → Nat → Nat) (left right : List (κ × Nat)) (key : κ) :
    entryAt same key (pointwise same combine left right) =
      (entryAt same key (left ++ right)).bind fun entry =>
        occurring entry.1 (combine (occurrences same key left) (occurrences same key right)) := by
  rw [pointwise, entryAt_selected hsame _ (distinct_representatives _),
    entryAt_representatives hsame]
  · cases hentry : entryAt same key (left ++ right) with
    | none => rfl
    | some entry =>
        have hkey := (mem_of_entryAt hentry).2
        rw [Option.bind_some, Option.bind_some, occurrences_congr hsame hkey,
          occurrences_congr hsame hkey]
  · intro entry kept hkept
    rw [occurring_key hkept]

variable {combine : Nat → Nat → Nat}

theorem occurrences_pointwise (hzero : combine 0 0 = 0) (left right : List (κ × Nat)) (key : κ) :
    occurrences same key (pointwise same combine left right) =
      combine (occurrences same key left) (occurrences same key right) := by
  rw [occurrences_of_distinct hsame (distinct_pointwise combine left right),
    entryAt_pointwise hsame]
  cases hentry : entryAt same key (left ++ right) with
  | none =>
      rw [entryAt_append, Option.or_eq_none_iff] at hentry
      rw [occurrences_of_absent hentry.1, occurrences_of_absent hentry.2, hzero]
      rfl
  | some entry => rw [Option.bind_some, numberAt_occurring]

/-- What two entries of one class give. -/
def pointwiseAt (combine : Nat → Nat → Nat) (left right : Option (κ × Nat)) : Option (κ × Nat) :=
  (left.or right).bind fun entry => occurring entry.1 (combine (numberAt left) (numberAt right))

theorem entryAt_pointwise_of_distinct (combine : Nat → Nat → Nat)
    (hleft : Distinct same left) (hright : Distinct same right) (key : κ) :
    entryAt same key (pointwise same combine left right) =
      pointwiseAt combine (entryAt same key left) (entryAt same key right) := by
  rw [entryAt_pointwise hsame, entryAt_append, occurrences_of_distinct hsame hleft,
    occurrences_of_distinct hsame hright, pointwiseAt]

/-- Combining with one entry writes the class of its key. -/
theorem sets_pointwise_single (hzero : ∀ count, combine count 0 = count)
    (hleft : Distinct same left) (hpositive : ∀ entry ∈ left, 0 < entry.2) (key : κ) (count : Nat) :
    Sets same key (pointwiseAt combine (entryAt same key left) (some (key, count))) left
      (pointwise same combine left [(key, count)]) := by
  intro other
  rw [entryAt_pointwise_of_distinct hsame combine hleft (pairwise_singleton _ _), entryAt_cons]
  by_cases hother : same other key = true
  · rw [if_pos hother, if_pos hother, entryAt_congr hsame hother]
  · rw [if_neg hother, if_neg hother]
    change pointwiseAt combine (entryAt same other left) none = _
    cases hentry : entryAt same other left with
    | none => rfl
    | some entry =>
        change occurring entry.1 (combine entry.2 0) = some entry
        rw [hzero, occurring_of_pos (hpositive entry (mem_of_entryAt hentry).1)]

omit hsame in
theorem occurrences_pos (hpositive : ∀ entry ∈ entries, 0 < entry.2)
    (hentry : entryAt same key entries = some entry) : 0 < occurrences same key entries := by
  obtain ⟨hmem, hkey⟩ := mem_of_entryAt hentry
  exact Nat.lt_of_lt_of_le (hpositive entry hmem) (le_occurrences hmem hkey)

omit hsame in
theorem occurrences_perm (h : left.Perm right) (key : κ) :
    occurrences same key left = occurrences same key right :=
  ((h.filter _).map Prod.snd).sum_nat

theorem pointwise_perm {before after : List (κ × Nat)}
    (hdistinct : Distinct same before) (h : before.Perm after) (right : List (κ × Nat)) :
    (pointwise same combine before right).Perm (pointwise same combine after right) := by
  apply perm_of_entryAt hsame (distinct_pointwise _ _ _) (distinct_pointwise _ _ _)
  intro key
  rw [entryAt_pointwise hsame, entryAt_pointwise hsame, occurrences_perm h, entryAt_append,
    entryAt_append, entryAt_perm hsame hdistinct h]

/-- Adding one list after another adds both. -/
theorem pointwise_append {middle : List (κ × Nat)} (hleft : ∀ entry ∈ left, 0 < entry.2)
    (hmiddle : ∀ entry ∈ middle, 0 < entry.2) (right : List (κ × Nat)) :
    (pointwise same (· + ·) (pointwise same (· + ·) left middle) right).Perm
      (pointwise same (· + ·) left (middle ++ right)) := by
  apply perm_of_entryAt hsame (distinct_pointwise _ _ _) (distinct_pointwise _ _ _)
  intro key
  rw [entryAt_pointwise hsame, entryAt_pointwise hsame, occurrences_pointwise hsame rfl,
    occurrences_append, Nat.add_assoc, ← append_assoc, entryAt_append, entryAt_append,
    entryAt_pointwise hsame]
  cases hentry : entryAt same key (left ++ middle) with
  | none => rfl
  | some entry =>
      have hpos : 0 < occurrences same key (left ++ middle) :=
        occurrences_pos (by
          intro item hitem
          rcases mem_append.mp hitem with hitem | hitem
          · exact hleft item hitem
          · exact hmiddle item hitem) hentry
      rw [occurrences_append] at hpos
      rw [Option.bind_some, occurring_of_pos hpos]
      rfl

/-- The right list may be gathered first. -/
theorem pointwise_gathered (hzero : combine 0 0 = 0) (left right : List (κ × Nat)) (key : κ) :
    entryAt same key (pointwise same combine left (pointwise same (· + ·) [] right)) =
      entryAt same key (pointwise same combine left right) := by
  have hnone : occurrences same key ([] : List (κ × Nat)) = 0 := rfl
  rw [entryAt_pointwise hsame, entryAt_pointwise hsame, occurrences_pointwise hsame rfl, hnone,
    Nat.zero_add, entryAt_append, entryAt_append, entryAt_pointwise hsame, nil_append, hnone,
    Nat.zero_add]
  cases hentry : entryAt same key left with
  | some entry => rfl
  | none =>
      rw [occurrences_of_absent hentry, Option.none_or, Option.none_or]
      cases hcount : occurrences same key right with
      | zero =>
          rw [hzero]
          cases entryAt same key right <;> rfl
      | succ count => cases entryAt same key right <;> rfl

omit hsame in
theorem totalOf_split (key : κ) (entries : List (κ × Nat)) :
    totalOf entries = occurrences same key entries + totalOf (otherClasses same key entries) := by
  induction entries with
  | nil => rfl
  | cons first rest ih =>
      rw [totalOf_cons, occurrences_cons, ih, otherClasses, otherClasses, filter_cons]
      by_cases hkey : same key first.1 = true
      · simp [hkey]
        omega
      · simp [hkey, totalOf_cons]
        omega

theorem entryAt_otherClasses (key other : κ) (entries : List (κ × Nat)) :
    entryAt same other (otherClasses same key entries) =
      if same other key = true then none else entryAt same other entries := by
  induction entries with
  | nil => simp [otherClasses, entryAt]
  | cons first rest ih =>
      rw [otherClasses, filter_cons, entryAt_cons]
      rw [otherClasses] at ih
      by_cases hkey : same key first.1 = true
      · have hfirst : same other first.1 = same other key := by
          rw [same_comm hsame other, ← same_congr hsame hkey, same_comm hsame]
        simp only [hkey, Bool.not_true, Bool.false_eq_true, if_false, ih, hfirst]
        split
        · rfl
        · rfl
      · simp only [hkey, Bool.not_false, if_true, entryAt_cons, ih]
        by_cases hfirst : same other first.1 = true
        · have hother : same other key = false := by
            rw [same_congr hsame hfirst, same_comm hsame]
            simpa using hkey
          simp [hfirst, hother]
        · simp [hfirst]

theorem occurrences_otherClasses (h : ¬same other key = true) (entries : List (κ × Nat)) :
    occurrences same other (otherClasses same key entries) = occurrences same other entries := by
  unfold occurrences otherClasses
  rw [filter_filter]
  congr 3
  funext entry
  by_cases hentry : same other entry.1 = true
  · have hkey : same key entry.1 = false := by
      rw [same_comm hsame, ← same_congr hsame hentry]
      simpa using h
    simp [hentry, hkey]
  · simp [hentry]

/-- A list in which one class has changed its number. -/
theorem totalOf_of_sets {before after : List (κ × Nat)} {now : Option (κ × Nat)}
    (hbefore : Distinct same before) (hafter : Distinct same after)
    (h : Sets same key now before after) :
    totalOf after + numberAt (entryAt same key before) = totalOf before + numberAt now := by
  have hothers : (otherClasses same key after).Perm (otherClasses same key before) := by
    apply perm_of_entryAt hsame (hafter.filter _) (hbefore.filter _)
    intro other
    change entryAt same other (otherClasses same key after) =
      entryAt same other (otherClasses same key before)
    rw [entryAt_otherClasses hsame, entryAt_otherClasses hsame, h other]
    split <;> rfl
  have hnow : entryAt same key after = now := by rw [h key, if_pos (same_refl hsame key)]
  rw [@totalOf_split _ same key after, @totalOf_split _ same key before, totalOf_perm hothers,
    occurrences_of_distinct hsame hafter, occurrences_of_distinct hsame hbefore, hnow]
  omega

theorem totalOf_eq_zero (h : ∀ key, occurrences same key entries = 0) : totalOf entries = 0 := by
  apply List.sum_eq_zero_iff_forall_eq_nat.mpr
  intro number hnumber
  obtain ⟨entry, hentry, rfl⟩ := List.mem_map.mp hnumber
  have hle := le_occurrences hentry (same_refl hsame entry.1)
  rw [h] at hle
  exact Nat.le_zero.mp hle

theorem totalOf_of_occurrences (hdistinct : Distinct same entries)
    (h : ∀ key, occurrences same key entries = occurrences same key others) :
    totalOf entries = totalOf others := by
  induction entries generalizing others with
  | nil =>
      symm
      apply totalOf_eq_zero hsame
      intro key
      exact (h key).symm
  | cons first rest ih =>
      obtain ⟨hfirst, hrest⟩ := pairwise_cons.mp hdistinct
      have hself := same_refl hsame first.1
      have hnumber : occurrences same first.1 others = first.2 := by
        rw [← h, occurrences_of_distinct hsame hdistinct, entryAt_cons, if_pos hself, numberAt_some]
      rw [totalOf_cons, @totalOf_split _ same first.1 others, hnumber, ih hrest]
      intro key
      by_cases hkey : same key first.1 = true
      · rw [occurrences_congr hsame hkey, occurrences_congr hsame hkey,
          occurrences_of_absent (entryAt_eq_none.mpr hfirst), occurrences_of_absent]
        rw [entryAt_otherClasses hsame, if_pos hself]
      · rw [occurrences_otherClasses hsame hkey, ← h, occurrences_cons, if_neg hkey, Nat.zero_add]

theorem totalOf_pointwise_add (left right : List (κ × Nat)) :
    totalOf (pointwise same (· + ·) left right) = totalOf left + totalOf right := by
  rw [← totalOf_append]
  apply totalOf_of_occurrences hsame (distinct_pointwise _ left right)
  intro key
  rw [occurrences_pointwise hsame rfl, occurrences_append]

end Classes

end Durable7.Foundation
