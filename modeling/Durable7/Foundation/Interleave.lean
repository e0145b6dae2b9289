import Mathlib.Data.List.Zip
import Mathlib.Algebra.Ring.Nat
import Mathlib.Algebra.Ring.Int.Defs

/-!
# Interleaving separators with segments

A wide search-tree block lists `n` separators and `n + 1` subtrees, and its
in-order traversal alternates between the two.  The traversal is studied here
as an operation on lists: how it splits around one segment, which elements it
contains, and when it determines its separators and segments.  `leading` is the
part in front of a segment (each separator after its segment), `trailing` the
part behind it (each separator before its segment).
-/

namespace Durable7.Foundation

open List Nat

universe u v

variable {α : Type u} {β : Type v}

def leading (separators : List α) (segments : List (List α)) : List α :=
  (separators.zip segments).flatMap fun pair => pair.2 ++ [pair.1]

def trailing (separators : List α) (segments : List (List α)) : List α :=
  (separators.zip segments).flatMap fun pair => pair.1 :: pair.2

/-- In-order traversal: `segment₀ separator₀ segment₁ … separatorₙ₋₁ segmentₙ`. -/
def interleave (separators : List α) (segments : List (List α)) : List α :=
  leading separators segments ++ (segments[separators.length]?).getD []

@[simp] theorem leading_nil (segments : List (List α)) :
    leading [] segments = [] := rfl

@[simp] theorem leading_cons (separator : α) (separators : List α)
    (segment : List α) (segments : List (List α)) :
    leading (separator :: separators) (segment :: segments) =
      segment ++ separator :: leading separators segments := by
  simp [leading]

@[simp] theorem trailing_nil (segments : List (List α)) :
    trailing [] segments = [] := rfl

@[simp] theorem trailing_cons (separator : α) (separators : List α)
    (segment : List α) (segments : List (List α)) :
    trailing (separator :: separators) (segment :: segments) =
      separator :: segment ++ trailing separators segments := by
  simp [trailing]

@[simp] theorem interleave_nil (segment : List α) (segments : List (List α)) :
    interleave [] (segment :: segments) = segment := by
  simp [interleave]

@[simp] theorem interleave_cons (separator : α) (separators : List α)
    (segment : List α) (segments : List (List α)) :
    interleave (separator :: separators) (segment :: segments) =
      segment ++ separator :: interleave separators segments := by
  simp [interleave]

variable {segments : List (List α)} {separators : List α}

theorem leading_interleave (h : separators.length = segments.length) (moreSeparators : List α)
    (moreSegments : List (List α)) :
    interleave (separators ++ moreSeparators) (segments ++ moreSegments) =
      leading separators segments ++ interleave moreSeparators moreSegments := by
  induction separators generalizing segments with
  | nil =>
      cases segments with
      | nil => rfl
      | cons segment segments => simp at h
  | cons separator separators ih =>
      cases segments with
      | nil => simp at h
      | cons segment segments =>
          simp only [length_cons, add_right_cancel_iff] at h
          simp [ih h]

theorem interleave_eq_trailing (h : separators.length = segments.length) (segment : List α) :
    interleave separators (segment :: segments) = segment ++ trailing separators segments := by
  induction separators generalizing segment segments with
  | nil => simp
  | cons separator separators ih =>
      cases segments with
      | nil => simp at h
      | cons next segments =>
          simp only [length_cons, add_right_cancel_iff] at h
          simp [ih h]

theorem interleave_split {leftSeparators rightSeparators : List α}
    {leftSegments rightSegments : List (List α)}
    (hleft : leftSeparators.length = leftSegments.length)
    (hright : rightSeparators.length = rightSegments.length) (segment : List α) :
    interleave (leftSeparators ++ rightSeparators) (leftSegments ++ segment :: rightSegments) =
      leading leftSeparators leftSegments ++ segment ++
        trailing rightSeparators rightSegments := by
  rw [leading_interleave hleft, interleave_eq_trailing hright, append_assoc]

theorem interleave_eq_leading (h : separators.length = segments.length) (segment : List α) :
    interleave separators (segments ++ [segment]) = leading separators segments ++ segment := by
  have hsplit := leading_interleave h [] [segment]
  simpa using hsplit

theorem map_interleave (f : α → β) (separators : List α) (segments : List (List α)) :
    (interleave separators segments).map f =
      interleave (separators.map f) (segments.map (List.map f)) := by
  induction separators generalizing segments with
  | nil => cases segments <;> simp [interleave]
  | cons separator separators ih =>
      cases segments with
      | nil => simp [interleave, leading]
      | cons segment segments => simp [ih]

theorem filter_interleave (p : α → Bool) (separators : List α) (segments : List (List α)) :
    (interleave separators segments).filter p =
      ((separators.zip (segments.map (List.filter p))).flatMap fun pair =>
        pair.2 ++ [pair.1].filter p) ++
        ((segments.map (List.filter p))[separators.length]?).getD [] := by
  induction separators generalizing segments with
  | nil => cases segments <;> simp [interleave]
  | cons separator separators ih =>
      cases segments with
      | nil => simp [interleave, leading]
      | cons segment segments =>
          rw [interleave_cons, filter_append,
            ← singleton_append (l := interleave separators segments),
            filter_append, ih]
          simp

variable {item : α}

section

variable (h : segments.length = separators.length + 1)
include h

theorem interleave_perm :
    (interleave separators segments).Perm (separators ++ segments.flatten) := by
  induction separators generalizing segments with
  | nil =>
      obtain ⟨segment, rfl⟩ := length_eq_one_iff.mp h
      simp
  | cons separator separators ih =>
      obtain ⟨segment, segments, rfl⟩ := exists_cons_of_length_eq_add_one h
      have hlength : segments.length = separators.length + 1 := by simpa using h
      have hrest := ih hlength
      rw [interleave_cons, flatten_cons]
      calc
        (segment ++ separator :: interleave separators segments).Perm
            (separator :: (segment ++ interleave separators segments)) :=
          perm_middle
        List.Perm _ (separator :: (segment ++ (separators ++ segments.flatten))) :=
          (hrest.append_left segment).cons separator
        List.Perm _ (separator :: (separators ++ (segment ++ segments.flatten))) := by
          rw [← append_assoc, ← append_assoc]
          exact (perm_append_comm.append_right _).cons separator

theorem mem_interleave :
    item ∈ interleave separators segments ↔
      item ∈ separators ∨ ∃ segment ∈ segments, item ∈ segment := by
  rw [(interleave_perm h).mem_iff, mem_append, mem_flatten]

theorem length_interleave :
    (interleave separators segments).length =
      separators.length + (segments.map List.length).sum := by
  rw [(interleave_perm h).length_eq, length_append, length_flatten]

end

theorem separators_sublist :
    ∀ {separators : List α} {segments : List (List α)},
      segments.length = separators.length + 1 →
      separators.Sublist (interleave separators segments)
  | [], [_], _ => nil_sublist _
  | _ :: _, segment :: segments, h => by
      rw [interleave_cons]
      refine List.Sublist.trans ?_ (sublist_append_right segment _)
      exact (separators_sublist (by simpa using h)).cons_cons _

theorem segment_sublist :
    ∀ {separators : List α} {segments : List (List α)},
      segments.length = separators.length + 1 →
      ∀ segment ∈ segments, segment.Sublist (interleave separators segments)
  | [], [first], _, segment, hmem => by
      rw [mem_singleton] at hmem
      simp [hmem]
  | separator :: _, first :: segments, h, segment, hmem => by
      rw [interleave_cons]
      rcases mem_cons.mp hmem with rfl | hrest
      · exact sublist_append_left _ _
      · have hbelow := segment_sublist (by simpa using h) segment hrest
        exact (hbelow.cons separator).trans (sublist_append_right _ _)

theorem mem_leading_of_mem (h : separators.length ≤ segments.length) (hitem : item ∈ separators) :
    item ∈ leading separators segments := by
  induction separators generalizing segments with
  | nil => simp at hitem
  | cons separator separators ih =>
      cases segments with
      | nil => simp at h
      | cons segment segments =>
          rw [leading_cons]
          rcases mem_cons.mp hitem with rfl | hitem
          · simp
          · simp [ih (by simpa using h) hitem]

theorem mem_trailing_of_mem (h : separators.length ≤ segments.length) (hitem : item ∈ separators) :
    item ∈ trailing separators segments := by
  induction separators generalizing segments with
  | nil => simp at hitem
  | cons separator separators ih =>
      cases segments with
      | nil => simp at h
      | cons segment segments =>
          rw [trailing_cons]
          rcases mem_cons.mp hitem with rfl | hitem
          · simp
          · simp [ih (by simpa using h) hitem]

/--
A property that passes from a separator to everything in front of it holds of
all leading elements as soon as it holds of the separators.
-/
theorem forall_mem_leading {r : α → α → Prop} {q : α → Prop}
    (back : ∀ before after, r before after → q after → q before) :
    ∀ {separators : List α} {segments : List (List α)},
      (leading separators segments).Pairwise r →
      (∀ separator ∈ separators, q separator) →
      ∀ item ∈ leading separators segments, q item
  | [], _, _, _, _, h => by simp at h
  | _ :: _, [], _, _, _, h => by simp [leading] at h
  | separator :: separators, segment :: segments, hpair, hq, item, h => by
      simp only [leading_cons, pairwise_append, pairwise_cons] at hpair
      simp only [leading_cons, mem_append, mem_cons] at h
      rcases h with h | rfl | h
      · exact back item separator (hpair.2.2 item h separator (by simp)) (hq separator (by simp))
      · exact hq item (by simp)
      · exact forall_mem_leading back hpair.2.1.2
          (fun next hnext => hq next (by simp [hnext])) item h

theorem forall_mem_trailing {r : α → α → Prop} {q : α → Prop}
    (forward : ∀ before after, r before after → q before → q after) :
    ∀ {separators : List α} {segments : List (List α)},
      (trailing separators segments).Pairwise r →
      (∀ separator ∈ separators, q separator) →
      ∀ item ∈ trailing separators segments, q item
  | [], _, _, _, _, h => by simp at h
  | _ :: _, [], _, _, _, h => by simp [trailing] at h
  | separator :: separators, segment :: segments, hpair, hq, item, h => by
      simp only [trailing_cons, cons_append, pairwise_cons, pairwise_append] at hpair
      simp only [trailing_cons, cons_append, mem_cons, mem_append] at h
      rcases h with rfl | h | h
      · exact hq item (by simp)
      · exact forward separator item (hpair.1 item (by simp [h])) (hq separator (by simp))
      · exact forall_mem_trailing forward hpair.2.2.1
          (fun next hnext => hq next (by simp [hnext])) item h

private theorem append_cons_unique {p : α → Prop} :
    ∀ {left left' : List α} {item item' : α} {right right' : List α},
      (∀ x ∈ left, ¬ p x) → (∀ x ∈ left', ¬ p x) → p item → p item' →
      left ++ item :: right = left' ++ item' :: right' →
      left = left' ∧ item = item' ∧ right = right'
  | [], [], _, _, _, _, _, _, _, _, h => by simpa using h
  | [], x :: left', _, _, _, _, _, hl', hi, _, h => by
      obtain ⟨rfl, -⟩ := List.cons.inj h
      exact absurd hi (hl' _ (by simp))
  | x :: left, [], _, _, _, _, hl, _, _, hi', h => by
      obtain ⟨rfl, -⟩ := List.cons.inj h
      exact absurd hi' (hl _ (by simp))
  | x :: left, x' :: left', _, _, _, _, hl, hl', hi, hi', h => by
      obtain ⟨rfl, htail⟩ := List.cons.inj h
      obtain ⟨rfl, hrest⟩ := append_cons_unique
        (fun y hy => hl y (by simp [hy])) (fun y hy => hl' y (by simp [hy]))
        hi hi' htail
      exact ⟨rfl, hrest⟩

/--
If a predicate holds of every separator and of no segment element, then the
traversal determines the separators and the segments.
-/
theorem interleave_unique {p : α → Prop} :
    ∀ {separators separators' : List α} {segments segments' : List (List α)},
      segments.length = separators.length + 1 →
      segments'.length = separators'.length + 1 →
      (∀ x ∈ separators, p x) → (∀ x ∈ separators', p x) →
      (∀ segment ∈ segments, ∀ x ∈ segment, ¬ p x) →
      (∀ segment ∈ segments', ∀ x ∈ segment, ¬ p x) →
      interleave separators segments = interleave separators' segments' →
      separators = separators' ∧ segments = segments'
  | [], [], [_], [_], _, _, _, _, _, _, h => by simpa using h
  | [], e :: es, [s], t :: ts, _, _, _, hp, hs, _, h => by
      refine absurd (hp e (by simp)) (hs s (by simp) e ?_)
      have hs' : s = t ++ e :: interleave es ts := by simpa using h
      simp [hs']
  | e :: es, [], s :: ss, [t], _, _, hp, _, _, ht, h => by
      refine absurd (hp e (by simp)) (ht t (by simp) e ?_)
      have ht' : t = s ++ e :: interleave es ss := by simpa using h.symm
      simp [ht']
  | e :: es, e' :: es', s :: ss, s' :: ss', hlen, hlen', hp, hp', hs, hs', h => by
      simp only [interleave_cons] at h
      obtain ⟨rfl, rfl, hrest⟩ := append_cons_unique (p := p)
        (hs s (by simp)) (hs' s' (by simp)) (hp e (by simp)) (hp' e' (by simp)) h
      obtain ⟨rfl, rfl⟩ := interleave_unique (by simpa using hlen)
        (by simpa using hlen') (fun x hx => hp x (by simp [hx]))
        (fun x hx => hp' x (by simp [hx]))
        (fun t ht => hs t (by simp [ht])) (fun t ht => hs' t (by simp [ht])) hrest
      exact ⟨rfl, rfl⟩

end Durable7.Foundation
