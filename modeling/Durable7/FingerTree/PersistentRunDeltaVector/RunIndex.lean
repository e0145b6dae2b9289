import Durable7.FingerTree.PersistentRunDeltaVector.Operations
import Durable7.Foundation.Runs

/-!
# The run index

The index is a sorted map from the starts of the maximal runs to their ends.
-/

namespace Durable7.FingerTree.PersistentRunDeltaVector

open Foundation List SortedMap Int

/-- The end of the run that starts at a position. -/
def ends (runs : SortedMap Int Int) (start : Int) : Option Int := (find start runs).map Prod.snd

def totalLength (runs : SortedMap Int Int) : Int :=
  ((SortedMap.toList runs).map fun entry => entry.2 - entry.1).sum

variable {position start stop : Int}

section Entries

variable {runs : SortedMap Int Int} (h : SortedMap.Sorted runs)

include h

theorem ends_eq_some : ends runs start = some stop ↔ (start, stop) ∈ SortedMap.toList runs := by
  rw [ends, Option.map_eq_some_iff]
  constructor
  · rintro ⟨entry, hentry, rfl⟩
    obtain ⟨hmem, heq⟩ := findKey_mem hentry
    rw [← Int.compare_eq_eq.mp heq]
    exact hmem
  · intro hmem
    exact ⟨(start, stop), h.findKey_eq_some.mpr ⟨hmem, Int.compare_eq_eq.mpr rfl⟩, rfl⟩

theorem ends_insert (start stop other : Int) :
    ends (insert start stop runs) other = if other = start then some stop else ends runs other := by
  rw [ends, find_insert h, ends]
  by_cases hsame : other = start
  · rw [if_pos hsame, if_pos (Int.compare_eq_eq.mpr hsame.symm)]
    rfl
  · rw [if_neg hsame, if_neg (fun heq => hsame (Int.compare_eq_eq.mp heq).symm)]

theorem ends_delete (start other : Int) :
    ends (delete start runs) other = if other = start then none else ends runs other := by
  rw [ends, find_delete h, ends]
  by_cases hsame : other = start
  · rw [if_pos hsame, if_pos (Int.compare_eq_eq.mpr hsame.symm)]
    rfl
  · rw [if_neg hsame, if_neg (fun heq => hsame (Int.compare_eq_eq.mp heq).symm)]

theorem floorEntry_some (hfloor : floorEntry position runs = some (start, stop)) :
    start ≤ position ∧ ends runs start = some stop ∧
      ∀ start' stop', ends runs start' = some stop' → start' ≤ position → start' ≤ start := by
  rw [floorEntry_eq h] at hfloor
  cases hfind : find position runs with
  | some entry =>
      rw [hfind, Option.some_or, Option.some_inj] at hfloor
      subst hfloor
      obtain ⟨hmem, heq⟩ := findKey_mem hfind
      have heq : start = position := Int.compare_eq_eq.mp heq
      refine ⟨le_of_eq heq, (ends_eq_some h).mpr hmem, ?_⟩
      intro start' stop' _ hle
      rw [heq]
      exact hle
  | none =>
      rw [hfind, Option.none_or] at hfloor
      obtain ⟨hmem, hlt⟩ := mem_below.mp (mem_of_getLast? hfloor)
      refine ⟨Int.le_of_lt (Int.compare_eq_lt.mp hlt), (ends_eq_some h).mpr hmem, ?_⟩
      intro start' stop' hends hle
      have hbelow : (start', stop') ∈ below compare Prod.fst position (SortedMap.toList runs) := by
        rcases lt_or_eq_of_le hle with hless | hsame
        · exact mem_below.mpr ⟨(ends_eq_some h).mp hends, Int.compare_eq_lt.mpr hless⟩
        · rw [hsame, ends, hfind] at hends
          cases hends
      obtain ⟨front, hfront⟩ := List.getLast?_eq_some_iff.mp hfloor
      have hsorted : StrictlySorted compare Prod.fst
          (below compare Prod.fst position (SortedMap.toList runs)) := h.filter _
      rw [hfront] at hbelow hsorted
      rcases mem_append.mp hbelow with hearlier | hlast
      · have := (pairwise_append.mp hsorted).2.2 _ hearlier _ (mem_singleton_self _)
        exact Int.le_of_lt (Int.compare_eq_lt.mp this)
      · rw [mem_singleton, Prod.mk.injEq] at hlast
        exact le_of_eq hlast.1

theorem floorEntry_none (hfloor : floorEntry position runs = none)
    (hends : ends runs start = some stop) : position < start := by
  rw [floorEntry_eq h, Option.or_eq_none_iff, List.getLast?_eq_none_iff] at hfloor
  have hmem := (ends_eq_some h).mp hends
  rcases lt_trichotomy start position with hlt | heq | hgt
  · have hbelow : (start, stop) ∈ below compare Prod.fst position (SortedMap.toList runs) :=
      mem_below.mpr ⟨hmem, Int.compare_eq_lt.mpr hlt⟩
    rw [hfloor.2] at hbelow
    cases hbelow
  · rw [heq, ends, hfloor.1] at hends
    cases hends
  · exact hgt

theorem rightEntry_eq (hnone : ends runs position = none) :
    rightEntry position runs = (ends runs (position + 1)).map (Prod.mk (position + 1)) := by
  have hfind : SortedMap.find position runs = none := by
    rw [ends, Option.map_eq_none_iff] at hnone
    exact hnone
  rw [rightEntry, SortedMap.ceilingEntry_eq h, hfind, Option.none_or]
  have habove : ∀ {stop}, ends runs (position + 1) = some stop →
      (position + 1, stop) ∈ above compare Prod.fst position (SortedMap.toList runs) := by
    intro stop hends
    refine mem_above.mpr ⟨(ends_eq_some h).mp hends, ?_⟩
    exact Int.compare_eq_gt.mpr (Int.lt_succ position)
  cases hhead : above compare Prod.fst position (SortedMap.toList runs) with
  | nil =>
      cases hends : ends runs (position + 1) with
      | none => rfl
      | some stop =>
          have := habove hends
          rw [hhead] at this
          cases this
  | cons first rest =>
      obtain ⟨start, stop⟩ := first
      obtain ⟨hmem, hgt⟩ := mem_above.mp (hhead ▸ mem_cons_self)
      have hgt : position < start := Int.compare_eq_gt.mp hgt
      rw [List.head?_cons]
      dsimp only
      split
      · next hsame =>
        subst hsame
        rw [(ends_eq_some h).mpr hmem]
        rfl
      · next hne =>
        cases hends : ends runs (position + 1) with
        | none => rfl
        | some stop' =>
            have hsorted : StrictlySorted compare Prod.fst
                (above compare Prod.fst position (SortedMap.toList runs)) := h.filter _
            have hnext := habove hends
            rw [hhead] at hnext hsorted
            rcases mem_cons.mp hnext with heq | hlater
            · rw [Prod.mk.injEq] at heq
              exact absurd heq.1.symm hne
            · have hlt := (pairwise_cons.mp hsorted).1 _ hlater
              have hlt : start < position + 1 := Int.compare_eq_lt.mp hlt
              omega

theorem totalLength_delete (start : Int) :
    totalLength (delete start runs) =
      totalLength runs - ((ends runs start).map fun stop => stop - start).getD 0 := by
  have htotal := congrArg
    (fun entries : List (Int × Int) => (entries.map fun entry => entry.2 - entry.1).sum)
    (h.cut start)
  rw [totalLength, totalLength, SortedMap.toList_delete h, ends, SortedMap.find]
  cases hfind : findKey compare Prod.fst start (SortedMap.toList runs) with
  | none =>
      rw [hfind] at htotal
      simp at htotal ⊢
      omega
  | some entry =>
      have heq : entry.1 = start := Int.compare_eq_eq.mp (findKey_mem hfind).2
      rw [hfind] at htotal
      simp at htotal ⊢
      omega

theorem totalLength_insert (start stop : Int) :
    totalLength (insert start stop runs) = totalLength (delete start runs) + (stop - start) := by
  rw [totalLength, totalLength, SortedMap.toList_delete h, SortedMap.toList_insert h]
  simp
  omega

end Entries

/-! ## The index of a set of positions -/

structure Indexes (runs : SortedMap Int Int) (marked : Int → Prop) : Prop where
  sorted : SortedMap.Sorted runs
  encodes : Encodes (ends runs) marked

section Indexes

variable {runs : SortedMap Int Int} {marked : Int → Prop} (h : Indexes runs marked)

include h

theorem Indexes.congr {others : Int → Prop}
    (hmarked : ∀ position, others position ↔ marked position) :
    Indexes runs others :=
  ⟨h.sorted, h.encodes.congr (fun _ => rfl) hmarked⟩

theorem Indexes.null_iff : SortedMap.null runs = true ↔ ∀ position, ¬ marked position := by
  rw [SortedMap.null_iff]
  constructor
  · intro hnil position hmarked
    obtain ⟨start, stop, hends, -⟩ := (h.encodes.covers position).mp hmarked
    rw [ends_eq_some h.sorted, hnil] at hends
    cases hends
  · intro hclear
    by_contra hne
    obtain ⟨⟨start, stop⟩, hmem⟩ := exists_mem_of_ne_nil _ hne
    have hends := (ends_eq_some h.sorted).mpr hmem
    exact hclear start (h.encodes.marked_of hends (le_refl start) (h.encodes.nonempty hends))

theorem leftStart_cases (position : Int) :
    leftStart position runs = none ∧ (∀ start, ends runs start ≠ some position) ∨
      ∃ start, leftStart position runs = some start ∧ ends runs start = some position := by
  have hsorted := h.sorted
  unfold leftStart
  cases hfloor : floorEntry position runs with
  | none =>
      refine .inl ⟨rfl, fun start hends => ?_⟩
      have hlow := floorEntry_none hsorted hfloor hends
      have := h.encodes.nonempty hends
      omega
  | some entry =>
      obtain ⟨start, stop⟩ := entry
      obtain ⟨hlow, hends, hlast⟩ := floorEntry_some hsorted hfloor
      dsimp only
      by_cases hstop : stop = position
      · rw [if_pos hstop]
        exact .inr ⟨start, rfl, hstop ▸ hends⟩
      · rw [if_neg hstop]
        refine .inl ⟨rfl, fun start' hends' => ?_⟩
        have hlt := h.encodes.nonempty hends'
        have hle := hlast start' position hends' (le_of_lt hlt)
        rcases lt_or_eq_of_le hle with hless | hsame
        · have := h.encodes.apart hends' hends hless
          omega
        · rw [hsame, hends, Option.some_inj] at hends'
          exact hstop hends'

theorem addDirtyPosition_spec (hclear : ¬ marked position) :
    Indexes (addDirtyPosition position runs) (fun other => other = position ∨ marked other) ∧
      totalLength (addDirtyPosition position runs) = totalLength runs + 1 := by
  have hsorted := h.sorted
  have hnone : ends runs position = none := by
    cases hends : ends runs position with
    | none => rfl
    | some stop =>
        exact absurd (h.encodes.marked_of hends (le_refl _) (h.encodes.nonempty hends)) hclear
  have hleft := leftStart_cases h position
  have hdelete : ∀ start other, ends (delete start runs) other =
      if other = start then none else ends runs other := ends_delete hsorted
  have hdeleted : ∀ start, SortedMap.Sorted (delete start runs) := sorted_delete hsorted
  unfold addDirtyPosition
  rw [rightEntry_eq hsorted hnone]
  generalize leftStart position runs = found at hleft ⊢
  cases hright : ends runs (position + 1) with
  | none =>
      rcases hleft with ⟨rfl, hfree⟩ | ⟨start, rfl, hends⟩
      · refine ⟨⟨sorted_insert hsorted _ _, ?_⟩, ?_⟩
        · apply (h.encodes.mark hclear (.inl ⟨rfl, hfree⟩) (.inl ⟨rfl, hright⟩)).congr
          · intro other
            rw [Option.map_none, ends_insert hsorted]
            grind
          · exact fun _ => Iff.rfl
        · rw [Option.map_none, totalLength_insert hsorted, totalLength_delete hsorted, hnone]
          simp
      · have hlt := h.encodes.nonempty hends
        refine ⟨⟨sorted_insert hsorted _ _, ?_⟩, ?_⟩
        · apply (h.encodes.mark hclear (.inr hends) (.inl ⟨rfl, hright⟩)).congr
          · intro other
            rw [Option.map_none, ends_insert hsorted]
            grind
          · exact fun _ => Iff.rfl
        · rw [Option.map_none, totalLength_insert hsorted, totalLength_delete hsorted, hends]
          simp
          omega
  | some stop =>
      rcases hleft with ⟨rfl, hfree⟩ | ⟨start, rfl, hends⟩
      · refine ⟨⟨sorted_insert (hdeleted _) _ _, ?_⟩, ?_⟩
        · apply (h.encodes.mark hclear (.inl ⟨rfl, hfree⟩) (.inr hright)).congr
          · intro other
            rw [Option.map_some, ends_insert (hdeleted _), hdelete]
          · exact fun _ => Iff.rfl
        · rw [Option.map_some, totalLength_insert (hdeleted _), totalLength_delete (hdeleted _),
            hdelete, if_neg (by omega), hnone, totalLength_delete hsorted, hright]
          simp
          omega
      · have hlt := h.encodes.nonempty hends
        refine ⟨⟨sorted_insert (hdeleted _) _ _, ?_⟩, ?_⟩
        · apply (h.encodes.mark hclear (.inr hends) (.inr hright)).congr
          · intro other
            rw [Option.map_some, ends_insert (hdeleted _), hdelete]
          · exact fun _ => Iff.rfl
        · rw [Option.map_some, totalLength_insert (hdeleted _), totalLength_delete (hdeleted _),
            hdelete, if_neg (by omega), hends, totalLength_delete hsorted, hright]
          simp
          omega

theorem Indexes.floorEntry_marked (hmarked : marked position) :
    ∃ start stop, floorEntry position runs = some (start, stop) ∧
      ends runs start = some stop ∧ start ≤ position ∧ position < stop := by
  obtain ⟨start, stop, hends, hlow, hhigh⟩ := (h.encodes.covers position).mp hmarked
  cases hfloor : floorEntry position runs with
  | none =>
      have := floorEntry_none h.sorted hfloor hends
      omega
  | some entry =>
      obtain ⟨start', stop'⟩ := entry
      obtain ⟨hlow', hends', hlast⟩ := floorEntry_some h.sorted hfloor
      refine ⟨start', stop', rfl, hends', hlow', ?_⟩
      by_contra hpast
      exact h.encodes.none_of_last hends' hlow' (by omega) hlast hmarked

theorem Indexes.floorEntry_clear (hclear : ¬ marked position)
    (hfloor : floorEntry position runs = some (start, stop)) : stop ≤ position := by
  obtain ⟨hlow, hends, -⟩ := floorEntry_some h.sorted hfloor
  by_contra hhigh
  exact hclear (h.encodes.marked_of hends hlow (by omega))

theorem removeDirtyPosition_spec (hmarked : marked position) :
    ∃ next, removeDirtyPosition position runs = .ok next ∧
      Indexes next (fun other => other ≠ position ∧ marked other) ∧
      totalLength next = totalLength runs - 1 := by
  have hsorted := h.sorted
  obtain ⟨start, stop, hfloor, hends, hlow, hhigh⟩ := h.floorEntry_marked hmarked
  have hclear := h.encodes.clear hends hlow hhigh
  have hdelete : ∀ start other, ends (delete start runs) other =
      if other = start then none else ends runs other := ends_delete hsorted
  have hdeleted : ∀ start, SortedMap.Sorted (delete start runs) := sorted_delete hsorted
  have hinserted : SortedMap.Sorted (insert start position runs) := sorted_insert hsorted _ _
  have hnext : position + 1 < stop → ends runs (position + 1) = none := by
    intro hinside
    cases hother : ends runs (position + 1) with
    | none => rfl
    | some stop' =>
        have := h.encodes.apart hends hother (by omega)
        omega
  unfold removeDirtyPosition
  rw [hfloor]
  dsimp only
  rw [if_pos hhigh]
  by_cases hfirst : start = position <;> by_cases hlast : stop = position + 1
  · rw [beq_iff_eq.mpr hfirst, beq_iff_eq.mpr hlast]
    refine ⟨_, rfl, ⟨hdeleted _, ?_⟩, ?_⟩
    · apply hclear.congr
      · intro other
        rw [hdelete]
        grind
      · exact fun _ => Iff.rfl
    · rw [totalLength_delete hsorted, hends]
      simp
      omega
  · rw [beq_iff_eq.mpr hfirst, beq_eq_false_iff_ne.mpr hlast]
    refine ⟨_, rfl, ⟨sorted_insert (hdeleted _) _ _, ?_⟩, ?_⟩
    · apply hclear.congr
      · intro other
        rw [ends_insert (hdeleted _), hdelete]
        grind
      · exact fun _ => Iff.rfl
    · rw [totalLength_insert (hdeleted _), totalLength_delete (hdeleted _), hdelete,
        if_neg (by omega), hnext (by omega), totalLength_delete hsorted, hends]
      simp
      omega
  · rw [beq_eq_false_iff_ne.mpr hfirst, beq_iff_eq.mpr hlast]
    refine ⟨_, rfl, ⟨hinserted, ?_⟩, ?_⟩
    · apply hclear.congr
      · intro other
        rw [ends_insert hsorted]
        grind
      · exact fun _ => Iff.rfl
    · rw [totalLength_insert hsorted, totalLength_delete hsorted, hends]
      simp
      omega
  · rw [beq_eq_false_iff_ne.mpr hfirst, beq_eq_false_iff_ne.mpr hlast]
    refine ⟨_, rfl, ⟨sorted_insert hinserted _ _, ?_⟩, ?_⟩
    · apply hclear.congr
      · intro other
        rw [ends_insert hinserted, ends_insert hsorted]
        grind
      · exact fun _ => Iff.rfl
    · rw [totalLength_insert hinserted, totalLength_delete hinserted, ends_insert hsorted,
        if_neg (by omega), hnext (by omega), totalLength_insert hsorted,
        totalLength_delete hsorted, hends]
      simp
      omega

theorem Indexes.dropRun (hends : ends runs start = some stop) :
    Indexes (delete start runs) (fun other => ¬ (start ≤ other ∧ other < stop) ∧ marked other) ∧
      totalLength (delete start runs) = totalLength runs - (stop - start) := by
  refine ⟨⟨sorted_delete h.sorted start, ?_⟩, ?_⟩
  · exact (h.encodes.drop hends).congr (ends_delete h.sorted start) fun _ => Iff.rfl
  · rw [totalLength_delete h.sorted, hends]
    rfl

end Indexes

theorem indexes_empty {marked : Int → Prop} (h : ∀ position, ¬ marked position) :
    Indexes .empty marked := by
  refine ⟨sorted_empty, (Encodes.empty h).congr (fun start => ?_) fun _ => Iff.rfl⟩
  rw [ends, find_empty]
  rfl

theorem totalLength_empty : totalLength .empty = 0 := by
  rw [totalLength, toList_empty]
  rfl

end Durable7.FingerTree.PersistentRunDeltaVector
