import Durable7.FingerTree.IntervalMap.Operations
import Durable7.Foundation.Lists

/-!
# Histories of interval maps

The two structures agree in every version.  Overlaps come in the order of the tree, which is the
order of the map as long as every new interval ends before the stored ones that begin with it.
-/

namespace Durable7.FingerTree.IntervalMap

open Foundation List Std.TransCmp
open IntervalTree (Ascending Proper meets sameInterval)

variable {a v : Type} [Ord a] [Std.TransOrd a]

/-- The versions of a history whose insertions are admitted. -/
inductive Reached (admits : IntervalMap a v → Interval a → Prop) : IntervalMap a v → Prop where
  | empty : Reached admits empty
  | add {source after : IntervalMap a v} (interval : Interval a) (value : v)
      (h : Reached admits source) (hadmits : admits source interval)
      (hstep : add interval value source = .ok (some after)) : Reached admits after
  | set {source after : IntervalMap a v} (interval : Interval a) (value : v)
      (h : Reached admits source) (hadmits : admits source interval)
      (hstep : set interval value source = .ok after) : Reached admits after
  | delete {source : IntervalMap a v} (interval : Interval a) (h : Reached admits source) :
      Reached admits (delete interval source)

def anything (_ : IntervalMap a v) (_ : Interval a) : Prop := True

/-- An interval is stored, or it ends before every stored one that begins with it. -/
def Fits (source : IntervalMap a v) (interval : Interval a) : Prop :=
  member interval source = true ∨ ∀ entry ∈ toList source,
    compare interval.low entry.1.low = .eq → compare interval.high entry.1.high = .lt

variable {admits : IntervalMap a v → Interval a → Prop} {map : IntervalMap a v}

theorem reached_induct (invariant : IntervalMap a v → Prop) (hempty : invariant empty)
    (hset : ∀ source interval value after, invariant source → admits source interval →
      set interval value source = .ok after → invariant after)
    (hdelete : ∀ source interval, invariant source → invariant (delete interval source))
    (h : Reached admits map) : invariant map := by
  induction h with
  | empty => exact hempty
  | add interval value _ hadmits hstep ih =>
      unfold add at hstep
      split at hstep
      · cases hstep
      · split at hstep
        · cases hstep
        · obtain ⟨after, hafter, heq⟩ := bind_eq_ok.mp hstep
          cases heq
          exact hset _ _ _ _ ih hadmits hafter
  | set interval value _ hadmits hstep ih => exact hset _ _ _ _ ih hadmits hstep
  | delete interval _ ih => exact hdelete _ _ ih

theorem Valid.set_puts {map after : IntervalMap a v} (h : map.Valid) {interval : Interval a}
    {value : v}
    (hstep : set interval value map = .ok after) : Puts map after interval value := by
  rcases h.set_gives interval value with ⟨-, hresult⟩ | ⟨-, next, hresult, hputs⟩
  · rw [hresult] at hstep
    cases hstep
  · rw [hresult] at hstep
    cases hstep
    exact hputs

theorem Reached.valid (h : Reached admits map) : map.Valid :=
  reached_induct Valid empty_valid (fun _ _ _ _ hsource _ hstep => (hsource.set_puts hstep).valid)
    (fun _ interval hsource => (hsource.delete_gives interval).1) h

/-! ## Order -/

/-- The tree has the order of the map. -/
def InOrder (map : IntervalMap a v) : Prop :=
  (treeKeys map).Pairwise fun before after => compareInterval before after = .lt

/-- One entry, up to the representative of its interval. -/
def SameEntry (found stored : Interval a × v) : Prop :=
  compareInterval found.1 stored.1 = .eq ∧ found.2 = stored.2

/-- Every query gives the entries of the map that meet its probe, in the order of the map. -/
def OverlapsInOrder (map : IntervalMap a v) : Prop :=
  ∀ probe, ∃ found, findOverlaps probe map = .ok found ∧
    List.Forall₂ SameEntry found ((toList map).filter fun entry => meets probe entry.1)

section Orders

variable {left right : Interval a}

omit [Std.TransOrd a] in
theorem compareInterval_lt_iff : compareInterval left right = .lt ↔
    compare left.low right.low = .lt ∨
      (compare left.low right.low = .eq ∧ compare left.high right.high = .lt) :=
  Ordering.then_eq_lt

theorem meets_congr {probe : Interval a} (h : compareInterval left right = .eq) :
    meets probe left = meets probe right := by
  obtain ⟨hlow, hhigh⟩ := compareLex_eq_eq.mp h
  have hlow : compare left.low right.low = .eq := hlow
  have hhigh : compare left.high right.high = .eq := hhigh
  rw [meets, meets, congr_left hlow, congr_right hhigh]

end Orders

section Results

variable {map : IntervalMap a v}

theorem Valid.overlaps_sorted (h : map.Valid) (horder : InOrder map) : OverlapsInOrder map := by
  intro probe
  obtain ⟨found, hfound, hattached⟩ := h.findOverlaps_gives probe
  refine ⟨found, hfound, ?_⟩
  have hkeys : found.map Prod.fst = (treeKeys map).filter (meets probe) := by
    rw [← forall₂_eq_eq_eq, forall₂_map_left_iff]
    exact hattached.flip.imp fun _ _ hpair => hpair.1
  have hsorted : StrictlySorted compareInterval Prod.fst found := by
    have hkeysSorted := horder.filter (meets probe)
    rw [← hkeys] at hkeysSorted
    exact pairwise_map.mp hkeysSorted
  refine hsorted.forall₂ ((sorted_toList map).filter _) (fun _ _ hsame => hsame.1) ?_ ?_
  · intro entry hentry
    have hitem : entry.1 ∈ (treeKeys map).filter (meets probe) := hkeys ▸ mem_map_of_mem hentry
    obtain ⟨hitem, hmeets⟩ := mem_filter.mp hitem
    obtain ⟨item, -, hown, hvalue⟩ := exists_of_forall₂ hattached.flip hentry
    obtain ⟨stored, hstored, hsame, hstoredValue⟩ := h.toList_of_treeKey hitem
    have hclass := compareInterval_eq_iff.mpr hsame
    refine ⟨stored, mem_filter.mpr ⟨hstored, ?_⟩, hclass, ?_⟩
    · rw [← meets_congr hclass]
      exact hmeets
    · rw [← hown, hstoredValue] at hvalue
      exact (Option.some.inj hvalue).symm
  · intro stored hstored
    obtain ⟨hstored, hmeets⟩ := mem_filter.mp hstored
    obtain ⟨hvalue, item, hitem, hsame⟩ := h.mem_toList hstored
    have hclass := compareInterval_eq_iff.mpr hsame
    have hfiltered : item ∈ (treeKeys map).filter (meets probe) :=
      mem_filter.mpr ⟨hitem, (meets_congr hclass).trans hmeets⟩
    obtain ⟨entry, hentry, hown, hentryValue⟩ := exists_of_forall₂ hattached hfiltered
    refine ⟨entry, hentry, hown ▸ hclass, ?_⟩
    rw [Std.TreeMap.getElem?_congr hclass, hvalue] at hentryValue
    exact (Option.some.inj hentryValue).symm

theorem Valid.inOrder_of_overlaps (h : map.Valid) (hoverlaps : OverlapsInOrder map) :
    InOrder map := by
  cases hitems : treeKeys map with
  | nil =>
      rw [InOrder, hitems]
      exact .nil
  | cons first rest =>
      let last := (first :: rest).getLast (cons_ne_nil first rest)
      have hall : (treeKeys map).filter (meets ⟨first.low, last.low⟩) = treeKeys map := by
        rw [filter_eq_self]
        intro item hitem
        have hproper := h.proper item hitem
        have hascending := h.ascending
        rw [hitems] at hitem hascending
        rw [meets, Bool.and_eq_true]
        constructor
        · have hsplit := dropLast_concat_getLast (cons_ne_nil first rest)
          rw [← hsplit] at hitem hascending
          rcases mem_append.mp hitem with hfront | hlast
          · exact (pairwise_append.mp hascending).2.2 item hfront last mem_cons_self
          · rw [mem_singleton.mp hlast]
            exact Std.ReflCmp.isLE_rfl
        · rcases mem_cons.mp hitem with rfl | hitem
          · exact hproper
          · exact isLE_trans ((pairwise_cons.mp hascending).1 item hitem) hproper
      obtain ⟨found, hfound, hmatched⟩ := hoverlaps ⟨first.low, last.low⟩
      obtain ⟨_, hresult, hattached⟩ := h.findOverlaps_gives ⟨first.low, last.low⟩
      rw [hfound] at hresult
      cases hresult
      rw [hall] at hattached
      have hfoundSorted : found.Pairwise fun before after =>
          compareInterval before.1 after.1 = .lt := by
        refine pairwise_of_forall₂ hmatched ((sorted_toList map).filter _) ?_
        intro first target second other hfirst hsecond hlt
        rw [congr_left hfirst.1, congr_right hsecond.1]
        exact hlt
      refine pairwise_of_forall₂ hattached hfoundSorted ?_
      rintro first target second other ⟨rfl, -⟩ ⟨rfl, -⟩ hlt
      exact hlt

theorem Valid.inOrder_iff (h : map.Valid) : OverlapsInOrder map ↔ InOrder map :=
  ⟨h.inOrder_of_overlaps, h.overlaps_sorted⟩

theorem Puts.inOrder_iff {after : IntervalMap a v} {interval : Interval a} {value : v}
    (hputs : Puts map after interval value) (h : map.Valid) (horder : InOrder map) :
    InOrder after ↔ Fits map interval := by
  rw [InOrder, hputs.treeKeys_eq, Fits]
  by_cases hmember : member interval map = true
  · rw [if_pos hmember]
    exact ⟨fun _ => .inl hmember, fun _ => horder⟩
  rw [if_neg hmember, or_iff_right hmember]
  have hcut : below compare Interval.low interval.low (treeKeys map) ++
      atLeast compare Interval.low interval.low (treeKeys map) = treeKeys map :=
    IntervalTree.below_append_atLeast h.ascending interval.low
  have hparts : (below compare Interval.low interval.low (treeKeys map) ++
      atLeast compare Interval.low interval.low (treeKeys map)).Pairwise fun before after =>
        compareInterval before after = .lt := hcut.symm ▸ horder
  obtain ⟨hbelow, hatLeast, hacross⟩ := pairwise_append.mp hparts
  rw [IntervalTree.ListModel.insert]
  constructor
  · intro hafter entry hentry hlow
    obtain ⟨-, item, hitem, hsame⟩ := h.mem_toList hentry
    obtain ⟨hitemLow, hitemHigh⟩ := compareLex_eq_eq.mp (compareInterval_eq_iff.mpr hsame)
    have hitemLow : compare item.low entry.1.low = .eq := hitemLow
    have hitemHigh : compare item.high entry.1.high = .eq := hitemHigh
    have hrun : compare interval.low item.low = .eq := by rwa [congr_right hitemLow]
    have hmem : item ∈ atLeast compare Interval.low interval.low (treeKeys map) := by
      rw [atLeast, mem_filter, Std.OrientedCmp.eq_symm hrun]
      exact ⟨hitem, rfl⟩
    have hlt := (pairwise_cons.mp (pairwise_append.mp hafter).2.1).1 item hmem
    rcases compareInterval_lt_iff.mp hlt with hless | ⟨-, hhigh⟩
    · rw [hrun] at hless
      cases hless
    · rwa [congr_right hitemHigh] at hhigh
  · intro hfits
    refine pairwise_append.mpr ⟨hbelow, pairwise_cons.mpr ⟨?_, hatLeast⟩, ?_⟩
    · intro item hitem
      rw [compareInterval_lt_iff]
      have hle := IntervalTree.candidates_low item hitem
      cases hlow : compare interval.low item.low with
      | lt => exact .inl rfl
      | gt =>
          rw [hlow] at hle
          cases hle
      | eq =>
          obtain ⟨entry, hentry, hsame, -⟩ := h.toList_of_treeKey (mem_of_mem_filter hitem)
          obtain ⟨hentryLow, hentryHigh⟩ := compareLex_eq_eq.mp (compareInterval_eq_iff.mpr hsame)
          have hentryLow : compare item.low entry.1.low = .eq := hentryLow
          have hentryHigh : compare item.high entry.1.high = .eq := hentryHigh
          have hhigh := hfits entry hentry (by rwa [congr_right hentryLow] at hlow)
          rw [← congr_right hentryHigh] at hhigh
          exact .inr ⟨rfl, hhigh⟩
    · intro item hitem other hother
      rcases mem_cons.mp hother with rfl | hother
      · exact compareInterval_lt_iff.mpr (.inl (mem_below.mp hitem).2)
      · exact hacross item hitem other hother

theorem Reached.inOrder (h : Reached Fits map) : InOrder map := by
  have hboth : map.Valid ∧ InOrder map := by
    refine reached_induct (fun map => map.Valid ∧ InOrder map) ?_ ?_ ?_ h
    · refine ⟨empty_valid, ?_⟩
      have hnil : treeKeys (IntervalMap.empty : IntervalMap a v) = [] := IntervalTree.treeList_empty
      rw [InOrder, hnil]
      exact .nil
    · intro source interval value after hsource hfits hstep
      have hputs := hsource.1.set_puts hstep
      exact ⟨hputs.valid, (hputs.inOrder_iff hsource.1 hsource.2).mpr hfits⟩
    · intro source interval hsource
      obtain ⟨hvalid, hsublist⟩ := hsource.1.delete_gives interval
      exact ⟨hvalid, hsource.2.sublist hsublist⟩
  exact hboth.2

end Results

structure Version (admits : IntervalMap a v → Interval a → Prop) where
  map : IntervalMap a v
  reached : Reached admits map

/-- The two structures agree in every version.  Overlaps come in order in every version of a
history whose new intervals fit, and an interval that does not fit breaks the order. -/
theorem overlaps_in_order (version : Version (anything (a := a) (v := v)))
    (fitting : Version (Fits (a := a) (v := v))) :
    OverlapsInOrder fitting.map ∧
      let map := version.map
      (treeKeys map).Pairwise (fun before after => sameInterval before after = false) ∧
      (∀ interval, member interval map = true ↔
        ∃ item ∈ treeKeys map, sameInterval item interval = true) ∧
      validStructure map = true ∧
      (∀ probe, ∃ found, findOverlaps probe map = .ok found ∧
        List.Forall₂ (fun item entry => entry.1 = item ∧ lookup item map = some entry.2)
          ((treeKeys map).filter (meets probe)) found) ∧
      (OverlapsInOrder map → ∀ interval value after, set interval value map = .ok after →
        (OverlapsInOrder after ↔ Fits map interval)) := by
  have hfitting := fitting.reached.valid
  have h := version.reached.valid
  refine ⟨hfitting.overlaps_sorted fitting.reached.inOrder, h.distinct, fun _ => h.keys_iff,
    h.validStructure_eq, h.findOverlaps_gives, ?_⟩
  intro horder interval value after hstep
  have hputs := h.set_puts hstep
  rw [hputs.valid.inOrder_iff, hputs.inOrder_iff h (h.inOrder_of_overlaps horder)]

theorem Valid.set_added (h : map.Valid) (interval : Interval a) (value : v)
    (hproper : Proper interval)
    (hnew : ((treeKeys map).any fun item => sameInterval item interval) = false) :
    ∃ after, set interval value map = .ok after ∧ after.Valid ∧
      after.payloads = map.payloads.insert interval value ∧
      treeKeys after = IntervalTree.ListModel.insert interval (treeKeys map) := by
  obtain ⟨-, after, hafter, hputs⟩ :=
    (h.set_gives interval value).resolve_left fun himproper => himproper.1 hproper
  refine ⟨after, hafter, hputs.valid, hputs.payloads_eq, hputs.treeKeys_eq.trans (if_neg ?_)⟩
  rw [member, h.keys_eq, hnew]
  exact Bool.false_ne_true

/-- Setting `[1, 3]` and then `[1, 2]` keeps the order. -/
theorem overlaps_in_order_shorter : ∃ first second : IntervalMap Nat Nat,
    set ⟨1, 3⟩ 0 empty = .ok first ∧ set ⟨1, 2⟩ 1 first = .ok second ∧
      OverlapsInOrder second := by
  have hnil : treeKeys (empty : IntervalMap Nat Nat) = [] := IntervalTree.treeList_empty
  obtain ⟨first, hfirst, hvalid, hpayloads, hkeys⟩ :=
    (empty_valid (a := Nat)).set_added ⟨1, 3⟩ 0 rfl (by rw [hnil]; rfl)
  rw [hnil] at hkeys
  have hkeys : treeKeys first = [⟨1, 3⟩] := hkeys
  obtain ⟨second, hsecond, -⟩ := hvalid.set_added ⟨1, 2⟩ 1 rfl (by rw [hkeys]; rfl)
  have hempty : Fits (empty : IntervalMap Nat Nat) ⟨1, 3⟩ := .inr (forall_mem_nil _)
  have hfits : Fits first ⟨1, 2⟩ := by
    right
    have hlist : toList first = [(⟨1, 3⟩, 0)] := by
      rw [toList, hpayloads]
      rfl
    rw [hlist, forall_mem_singleton]
    exact fun _ => rfl
  exact ⟨first, second, hfirst, hsecond, (overlaps_in_order ⟨empty, .empty⟩
    ⟨second, .set _ _ (.set _ _ .empty hempty hfirst) hfits hsecond⟩).1⟩

/-- Setting `[1, 2]` and then `[1, 3]` puts the longer one first in the tree. -/
theorem overlaps_out_of_order : ∃ first second : IntervalMap Nat Nat,
    set ⟨1, 2⟩ 0 empty = .ok first ∧ set ⟨1, 3⟩ 1 first = .ok second ∧
      findOverlaps ⟨1, 9⟩ second = .ok [(⟨1, 3⟩, 1), (⟨1, 2⟩, 0)] ∧
      toList second = [(⟨1, 2⟩, 0), (⟨1, 3⟩, 1)] ∧ ¬OverlapsInOrder second := by
  have hnil : treeKeys (empty : IntervalMap Nat Nat) = [] := IntervalTree.treeList_empty
  obtain ⟨first, hfirst, hvalid, hpayloads, hkeys⟩ :=
    (empty_valid (a := Nat)).set_added ⟨1, 2⟩ 0 rfl (by rw [hnil]; rfl)
  rw [hnil] at hkeys
  have hkeys : treeKeys first = [⟨1, 2⟩] := hkeys
  obtain ⟨second, hsecond, hvalid', hpayloads', hkeys'⟩ :=
    hvalid.set_added ⟨1, 3⟩ 1 rfl (by rw [hkeys]; rfl)
  rw [hkeys] at hkeys'
  have hkeys' : treeKeys second = [⟨1, 3⟩, ⟨1, 2⟩] := hkeys'
  rw [hpayloads] at hpayloads'
  refine ⟨first, second, hfirst, hsecond, ?_, ?_, ?_⟩
  · rw [findOverlaps, IntervalTree.findOverlaps_eq hvalid'.ascending]
    change ((treeKeys second).filter (meets ⟨1, 9⟩)).mapM (attach second) = _
    unfold attach
    rw [hkeys', hpayloads']
    rfl
  · rw [toList, hpayloads']
    rfl
  · rw [hvalid'.inOrder_iff, InOrder, hkeys']
    intro horder
    have hlt := (pairwise_cons.mp horder).1 _ mem_cons_self
    cases hlt

end Durable7.FingerTree.IntervalMap
