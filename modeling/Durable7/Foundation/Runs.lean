import Durable7.Foundation.Keyed
import Mathlib.Algebra.Order.Group.Int

/-!
# Maximal runs of marked positions

A set of positions is kept as the ends of its maximal half-open runs, each under its
start.  Marking and clearing one position, and clearing one run, are local changes.
-/

namespace Durable7.Foundation

open List Int

/-- A run that no marked position prolongs. -/
structure MaximalRun (marked : Int → Prop) (start stop : Int) : Prop where
  nonempty : start < stop
  inside : ∀ position, start ≤ position → position < stop → marked position
  before : ¬ marked (start - 1)
  after : ¬ marked stop

structure Encodes (ends : Int → Option Int) (marked : Int → Prop) : Prop where
  nonempty : ∀ {start stop}, ends start = some stop → start < stop
  apart : ∀ {start stop start' stop'}, ends start = some stop → ends start' = some stop' →
    start < start' → stop < start'
  covers : ∀ position, marked position ↔
    ∃ start stop, ends start = some stop ∧ start ≤ position ∧ position < stop

namespace Encodes

variable {ends : Int → Option Int} {marked : Int → Prop}

theorem congr {others : Int → Option Int} {others' : Int → Prop} (h : Encodes ends marked)
    (hends : ∀ start, others start = ends start)
    (hmarked : ∀ position, others' position ↔ marked position) : Encodes others others' := by
  obtain rfl : others = ends := funext hends
  obtain rfl : others' = marked := funext fun position => propext (hmarked position)
  exact h

theorem empty (h : ∀ position, ¬ marked position) : Encodes (fun _ => none) marked where
  nonempty hends := by cases hends
  apart hends := by cases hends
  covers position := by
    apply iff_of_false (h position)
    rintro ⟨start, stop, hends, -⟩
    cases hends

section

variable (h : Encodes ends marked)
include h

theorem marked_of {start stop position : Int}
    (hends : ends start = some stop) (hlow : start ≤ position) (hhigh : position < stop) :
    marked position :=
  (h.covers position).mpr ⟨start, stop, hends, hlow, hhigh⟩

/-- Two runs that hold one position are the same. -/
theorem start_unique {start stop start' stop' position : Int}
    (hends : ends start = some stop) (hends' : ends start' = some stop')
    (hlow : start ≤ position) (hhigh : position < stop) (hlow' : start' ≤ position)
    (hhigh' : position < stop') : start = start' := by
  rcases lt_trichotomy start start' with hlt | heq | hgt
  · have := h.apart hends hends' hlt
    omega
  · exact heq
  · have := h.apart hends' hends hgt
    omega

theorem maximalRun {start stop : Int} (hends : ends start = some stop) :
    MaximalRun marked start stop where
  nonempty := h.nonempty hends
  inside position hlow hhigh := h.marked_of hends hlow hhigh
  before := by
    rw [h.covers]
    rintro ⟨start', stop', hends', hlow, hhigh⟩
    have := h.apart hends' hends (by omega)
    omega
  after := by
    rw [h.covers]
    rintro ⟨start', stop', hends', hlow, hhigh⟩
    have hnonempty := h.nonempty hends
    rcases lt_trichotomy start start' with hlt | heq | hgt
    · have := h.apart hends hends' hlt
      omega
    · rw [← heq, hends, Option.some_inj] at hends'
      omega
    · have := h.apart hends' hends hgt
      omega

/-- The encoding holds the maximal runs and nothing else. -/
theorem iff_maximalRun {start stop : Int} :
    ends start = some stop ↔ MaximalRun marked start stop := by
  refine ⟨h.maximalRun, fun hrun => ?_⟩
  have hfirst := hrun.inside start (le_refl start) hrun.nonempty
  obtain ⟨start', stop', hends, hlow, hhigh⟩ := (h.covers start).mp hfirst
  have hfound := h.maximalRun hends
  obtain rfl : start' = start := by
    by_contra hne
    exact hrun.before (hfound.inside (start - 1) (by omega) (by omega))
  rcases lt_trichotomy stop stop' with hlt | heq | hgt
  · exact absurd (hfound.inside stop (le_of_lt hrun.nonempty) hlt) hrun.after
  · rw [heq]
    exact hends
  · exact absurd (hrun.inside stop' (le_of_lt hhigh) hgt) hfound.after

/-- The run that holds a position is the last one that starts at or below it. -/
theorem none_of_last {start stop position : Int}
    (hends : ends start = some stop) (hlow : start ≤ position) (hpast : stop ≤ position)
    (hlast : ∀ start' stop', ends start' = some stop' → start' ≤ position → start' ≤ start) :
    ¬ marked position := by
  rw [h.covers]
  rintro ⟨start', stop', hends', hlow', hhigh'⟩
  have hle := hlast start' stop' hends' hlow'
  rcases lt_or_eq_of_le hle with hlt | heq
  · have := h.apart hends' hends hlt
    omega
  · rw [heq, hends, Option.some_inj] at hends'
    omega

end

section Mark

variable {position left right : Int}

/-- The new run takes in a run that ends at the position and a run that starts behind it. -/
theorem mark (h : Encodes ends marked) (hclear : ¬ marked position)
    (hleft : left = position ∧ (∀ start, ends start ≠ some position) ∨ ends left = some position)
    (hright : right = position + 1 ∧ ends (position + 1) = none ∨
      ends (position + 1) = some right) :
    Encodes (fun start => if start = left then some right
        else if start = position + 1 then none else ends start)
      fun other => other = position ∨ marked other := by
  have hout : ∀ {start stop}, ends start = some stop → start ≤ position → stop ≤ position := by
    intro start stop hends hlow
    by_contra hhigh
    exact hclear (h.marked_of hends hlow (by omega))
  have hleftLe : left ≤ position := by
    rcases hleft with ⟨rfl, -⟩ | hends
    · exact le_refl left
    · exact le_of_lt (h.nonempty hends)
  have hrightLt : position < right := by
    rcases hright with ⟨rfl, -⟩ | hends
    · omega
    · have := h.nonempty hends
      omega
  have hbelow : ∀ {start stop}, ends start = some stop → start ≤ position → start ≠ left →
      stop < left := by
    intro start stop hends hlow hne
    have hstop := hout hends hlow
    rcases hleft with ⟨rfl, hnone⟩ | hleftEnds
    · rcases lt_or_eq_of_le hstop with hlt | rfl
      · exact hlt
      · exact absurd hends (hnone start)
    · rcases lt_trichotomy start left with hlt | heq | hgt
      · exact h.apart hends hleftEnds hlt
      · exact absurd heq hne
      · have := h.apart hleftEnds hends hgt
        have := h.nonempty hends
        omega
  have habove : ∀ {start stop}, ends start = some stop → position < start →
      start ≠ position + 1 → right < start := by
    intro start stop hends hlow hne
    rcases hright with ⟨rfl, -⟩ | hrightEnds
    · omega
    · exact h.apart hrightEnds hends (by omega)
  refine ⟨?_, ?_, ?_⟩
  · intro start stop hends
    split at hends
    · cases hends
      omega
    · split at hends
      · cases hends
      · exact h.nonempty hends
  · intro start stop start' stop' hends hends' hlt
    split at hends
    · next heq =>
      cases hends
      rw [if_neg (by omega)] at hends'
      split at hends'
      · cases hends'
      · next hne' =>
        by_cases hside : position < start'
        · exact habove hends' hside hne'
        · have := hbelow hends' (by omega) (by omega)
          have := h.nonempty hends'
          omega
    · next hne =>
      split at hends
      · cases hends
      · next hne₁ =>
        split at hends'
        · next heq' =>
          cases hends'
          rw [heq']
          exact hbelow hends (by omega) hne
        · split at hends'
          · cases hends'
          · exact h.apart hends hends' hlt
  · intro other
    constructor
    · rintro (rfl | hmarked)
      · exact ⟨left, right, if_pos rfl, hleftLe, hrightLt⟩
      · obtain ⟨start, stop, hends, hlow, hhigh⟩ := (h.covers other).mp hmarked
        by_cases hfirst : start = left
        · subst hfirst
          refine ⟨start, right, if_pos rfl, hlow, ?_⟩
          have := hout hends hleftLe
          omega
        · by_cases hnext : start = position + 1
          · subst hnext
            refine ⟨left, right, if_pos rfl, by omega, ?_⟩
            rcases hright with ⟨-, hnone⟩ | hrightEnds
            · rw [hnone] at hends
              cases hends
            · rw [hrightEnds, Option.some_inj] at hends
              omega
          · exact ⟨start, stop, by rw [if_neg hfirst, if_neg hnext, hends], hlow, hhigh⟩
    · rintro ⟨start, stop, hends, hlow, hhigh⟩
      split at hends
      · next heq =>
        cases hends
        rcases lt_trichotomy other position with hlt | heq | hgt
        · rcases hleft with ⟨hsame, -⟩ | hleftEnds
          · omega
          · exact .inr (h.marked_of hleftEnds (by omega) hlt)
        · exact .inl heq
        · rcases hright with ⟨hsame, -⟩ | hrightEnds
          · omega
          · exact .inr (h.marked_of hrightEnds (by omega) hhigh)
      · split at hends
        · cases hends
        · exact .inr (h.marked_of hends hlow hhigh)

end Mark

/-- The run of the position leaves what is before and what is behind it. -/
theorem clear (h : Encodes ends marked) {start stop position : Int}
    (hends : ends start = some stop) (hlow : start ≤ position) (hhigh : position < stop) :
    Encodes (fun other => if other = position + 1 ∧ position + 1 < stop then some stop
        else if other = start then (if start < position then some position else none)
        else ends other)
      fun other => other ≠ position ∧ marked other := by
  have hother : ∀ {start' stop'}, ends start' = some stop' → start' ≠ start →
      stop' < start ∨ stop < start' := by
    intro start' stop' hends' hne
    rcases lt_trichotomy start' start with hlt | heq | hgt
    · exact .inl (h.apart hends' hends hlt)
    · exact absurd heq hne
    · exact .inr (h.apart hends hends' hgt)
  have hcases : ∀ {start' stop'}, (if start' = position + 1 ∧ position + 1 < stop then some stop
        else if start' = start then (if start < position then some position else none)
        else ends start') = some stop' →
      (start' = position + 1 ∧ stop' = stop ∧ position + 1 < stop) ∨
      (start' = start ∧ stop' = position ∧ start < position) ∨
      (start' ≠ start ∧ ends start' = some stop' ∧ start' < stop' ∧
        (stop' < start ∨ stop < start')) := by
    intro start' stop' hends'
    split at hends'
    · next hafter =>
      cases hends'
      exact .inl ⟨hafter.1, rfl, hafter.2⟩
    · split at hends'
      · next hsame =>
        split at hends'
        · next hbefore =>
          cases hends'
          exact .inr (.inl ⟨hsame, rfl, hbefore⟩)
        · cases hends'
      · next hne => exact .inr (.inr ⟨hne, hends', h.nonempty hends', hother hends' hne⟩)
  refine ⟨?_, ?_, ?_⟩
  · intro start' stop' hends'
    have := hcases hends'
    omega
  · intro first stop₁ second stop₂ hfirst hsecond hlt
    rcases hcases hfirst with hone | hone | ⟨hne, hkept, hone⟩
    · have := hcases hsecond
      omega
    · have := hcases hsecond
      omega
    · rcases hcases hsecond with htwo | htwo | ⟨hne', hkept', -⟩
      · omega
      · omega
      · exact h.apart hkept hkept' hlt
  · intro other
    constructor
    · rintro ⟨hne, hmarked⟩
      obtain ⟨start', stop', hends', hlow', hhigh'⟩ := (h.covers other).mp hmarked
      by_cases hsame : start' = start
      · subst hsame
        rw [hends, Option.some_inj] at hends'
        subst hends'
        rcases Int.lt_or_lt_of_ne hne with hlt | hgt
        · refine ⟨start', position, ?_, hlow', hlt⟩
          rw [if_neg (by omega), if_pos rfl, if_pos (by omega)]
        · exact ⟨position + 1, stop, if_pos ⟨rfl, by omega⟩, by omega, hhigh'⟩
      · have hapart := hother hends' hsame
        refine ⟨start', stop', ?_, hlow', hhigh'⟩
        rw [if_neg (by omega), if_neg hsame]
        exact hends'
    · rintro ⟨start', stop', hends', hlow', hhigh'⟩
      rcases hcases hends' with hone | hone | ⟨hne, hkept, hone⟩
      · exact ⟨by omega, h.marked_of hends (by omega) (by omega)⟩
      · exact ⟨by omega, h.marked_of hends (by omega) (by omega)⟩
      · exact ⟨by omega, h.marked_of hkept hlow' hhigh'⟩

theorem drop (h : Encodes ends marked) {start stop : Int} (hends : ends start = some stop) :
    Encodes (fun other => if other = start then none else ends other)
      fun other => ¬ (start ≤ other ∧ other < stop) ∧ marked other := by
  refine ⟨?_, ?_, ?_⟩
  · intro start' stop' hends'
    split at hends'
    · cases hends'
    · exact h.nonempty hends'
  · intro first stop₁ second stop₂ hfirst hsecond hlt
    split at hfirst
    · cases hfirst
    · split at hsecond
      · cases hsecond
      · exact h.apart hfirst hsecond hlt
  · intro other
    constructor
    · rintro ⟨hout, hmarked⟩
      obtain ⟨start', stop', hends', hlow, hhigh⟩ := (h.covers other).mp hmarked
      refine ⟨start', stop', if_neg ?_ |>.trans hends', hlow, hhigh⟩
      rintro rfl
      rw [hends, Option.some_inj] at hends'
      omega
    · rintro ⟨start', stop', hends', hlow, hhigh⟩
      split at hends'
      · cases hends'
      · next hne =>
        refine ⟨?_, h.marked_of hends' hlow hhigh⟩
        rintro ⟨hlow', hhigh'⟩
        exact hne (h.start_unique hends' hends hlow hhigh hlow' hhigh')

end Encodes

structure EncodesList (runs : List (Int × Int)) (marked : Int → Prop) : Prop where
  nonempty : ∀ run ∈ runs, run.1 < run.2
  apart : runs.Pairwise fun left right => left.2 < right.1
  covers : ∀ position, marked position ↔ ∃ run ∈ runs, run.1 ≤ position ∧ position < run.2

namespace EncodesList

variable {runs : List (Int × Int)} {marked : Int → Prop}

section

variable (h : EncodesList runs marked)
include h

theorem sorted : StrictlySorted compare Prod.fst runs := by
  refine h.apart.imp_of_mem fun hleft _ hlt => Int.compare_eq_lt.mpr ?_
  have := h.nonempty _ hleft
  omega

theorem encodes :
    Encodes (fun start => (findKey compare Prod.fst start runs).map Prod.snd) marked := by
  have hiff : ∀ {start stop : Int},
      (findKey compare Prod.fst start runs).map Prod.snd = some stop ↔ (start, stop) ∈ runs := by
    intro start stop
    rw [Option.map_eq_some_iff]
    constructor
    · rintro ⟨run, hrun, rfl⟩
      obtain ⟨hmem, heq⟩ := findKey_mem hrun
      rw [← Int.compare_eq_eq.mp heq]
      exact hmem
    · intro hmem
      exact ⟨(start, stop), h.sorted.findKey_eq_some.mpr ⟨hmem, Int.compare_eq_eq.mpr rfl⟩, rfl⟩
  refine ⟨?_, ?_, ?_⟩
  · intro start stop hends
    exact h.nonempty _ (hiff.mp hends)
  · intro start stop start' stop' hends hends' hlt
    by_contra hle
    have hmem := hiff.mp hends
    have hmem' := hiff.mp hends'
    obtain ⟨place, hplace, hget⟩ := getElem_of_mem hmem
    obtain ⟨place', hplace', hget'⟩ := getElem_of_mem hmem'
    rcases Nat.lt_trichotomy place place' with hbefore | hsame | hafter
    · have := pairwise_iff_getElem.mp h.apart place place' hplace hplace' hbefore
      rw [hget, hget'] at this
      exact hle this
    · subst hsame
      rw [hget, Prod.mk.injEq] at hget'
      omega
    · have := pairwise_iff_getElem.mp h.apart place' place hplace' hplace hafter
      rw [hget, hget'] at this
      have := h.nonempty _ hmem'
      dsimp only at *
      omega
  · intro position
    rw [h.covers]
    constructor
    · rintro ⟨⟨start, stop⟩, hmem, hlow, hhigh⟩
      exact ⟨start, stop, hiff.mpr hmem, hlow, hhigh⟩
    · rintro ⟨start, stop, hends, hlow, hhigh⟩
      exact ⟨(start, stop), hiff.mp hends, hlow, hhigh⟩

theorem mem_iff {start stop : Int} : (start, stop) ∈ runs ↔ MaximalRun marked start stop := by
  rw [← h.encodes.iff_maximalRun, Option.map_eq_some_iff]
  constructor
  · intro hmem
    exact ⟨(start, stop), h.sorted.findKey_eq_some.mpr ⟨hmem, Int.compare_eq_eq.mpr rfl⟩, rfl⟩
  · rintro ⟨run, hrun, rfl⟩
    obtain ⟨hmem, heq⟩ := findKey_mem hrun
    rw [← Int.compare_eq_eq.mp heq]
    exact hmem

/-- A set of positions has one list of maximal runs. -/
theorem unique {others : List (Int × Int)}
    (hothers : EncodesList others marked) : runs = others := by
  apply h.sorted.ext_mem hothers.sorted
  intro run
  exact (@mem_iff _ _ h run.1 run.2).trans hothers.mem_iff.symm

end

end EncodesList

end Durable7.Foundation
