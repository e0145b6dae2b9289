import Durable7.Foundation.Association
import Mathlib.Data.List.Induction
import Mathlib.Data.List.Nodup

/-!
# Entries by classes of keys

Pairs of a key and a value, where a test says which keys count as one.  A list has
one class when it has a key of that class, and it is distinct when no two of its keys
share a class.
-/

namespace Durable7.Foundation

open List

universe u v

variable {κ : Type u} {ν : Type v}

/-- The first entry of the class of a key. -/
def entryAt (same : κ → κ → Bool) (key : κ) (entries : List (κ × ν)) : Option (κ × ν) :=
  entries.find? fun entry => same key entry.1

def Distinct (same : κ → κ → Bool) (entries : List (κ × ν)) : Prop :=
  entries.Pairwise fun left right => same left.1 right.1 = false

/-- The class of the key has the given entry now, the other classes have what they had. -/
def Sets (same : κ → κ → Bool) (key : κ) (entry : Option (κ × ν))
    (before after : List (κ × ν)) : Prop :=
  ∀ other, entryAt same other after =
    if same other key = true then entry else entryAt same other before

/-- The first key of a class beside its last value. -/
def gathered (same : κ → κ → Bool) (key : κ) (entries : List (κ × ν)) : Option (κ × ν) :=
  (entries.filter fun entry => same key entry.1).foldl putSlot none

section Search

variable {same : κ → κ → Bool} {key other : κ} {entry : κ × ν} {entries others : List (κ × ν)}

theorem mem_of_entryAt (h : entryAt same key entries = some entry) :
    entry ∈ entries ∧ same key entry.1 = true :=
  ⟨mem_of_find?_eq_some h, List.find?_some (p := fun found : κ × ν => same key found.1) h⟩

theorem entryAt_eq_none :
    entryAt same key entries = none ↔ ∀ entry ∈ entries, same key entry.1 = false := by
  simp [entryAt]

theorem entryAt_append :
    entryAt same key (entries ++ others) =
      (entryAt same key entries).or (entryAt same key others) :=
  List.find?_append

theorem entryAt_cons : entryAt same key (entry :: entries) =
    if same key entry.1 = true then some entry else entryAt same key entries := by
  by_cases hkey : same key entry.1 = true
  · rw [if_pos hkey]
    exact List.find?_cons_of_pos (p := fun found : κ × ν => same key found.1) hkey
  · rw [if_neg hkey]
    exact List.find?_cons_of_neg (p := fun found : κ × ν => same key found.1) hkey

theorem entryAt_split (h : entryAt same key entries = some entry) :
    same key entry.1 = true ∧ ∃ front back, entries = front ++ entry :: back ∧
      ∀ passed ∈ front, same key passed.1 = false := by
  obtain ⟨hentry, front, back, rfl, hfront⟩ := List.find?_eq_some_iff_append.mp h
  exact ⟨hentry, front, back, rfl, fun passed hpassed => by simpa using hfront passed hpassed⟩

end Search

section Classes

variable {same : κ → κ → Bool} {key other : κ} {entry : κ × ν} {entries others : List (κ × ν)}
  (hsame : Equivalence fun left right => same left right = true)

include hsame

theorem same_refl (key : κ) : same key key = true := hsame.refl key

theorem same_comm (left right : κ) : same left right = same right left := by
  rw [Bool.eq_iff_iff]
  exact ⟨fun h => hsame.symm h, fun h => hsame.symm h⟩

theorem same_congr (h : same key other = true) (third : κ) : same key third = same other third := by
  rw [Bool.eq_iff_iff]
  exact ⟨fun hthird => hsame.trans (hsame.symm h) hthird, fun hthird => hsame.trans h hthird⟩

theorem entryAt_congr (h : same key other = true) (entries : List (κ × ν)) :
    entryAt same key entries = entryAt same other entries := by
  unfold entryAt
  congr 1
  funext entry
  exact same_congr hsame h entry.1

/-- In a distinct list an entry is the only one of its class. -/
theorem entryAt_eq_some (hdistinct : Distinct same entries) :
    entryAt same key entries = some entry ↔ entry ∈ entries ∧ same key entry.1 = true := by
  constructor
  · exact mem_of_entryAt
  · rintro ⟨hmem, hkey⟩
    induction entries with
    | nil => cases hmem
    | cons first rest ih =>
        obtain ⟨hfirst, hrest⟩ := pairwise_cons.mp hdistinct
        rcases mem_cons.mp hmem with rfl | hmem
        · rw [entryAt_cons, if_pos hkey]
        · have hother : same key first.1 = false := by
            rw [same_congr hsame hkey, same_comm hsame]
            exact hfirst entry hmem
          rw [entryAt_cons, if_neg (by simp [hother])]
          exact ih hrest hmem

theorem entryAt_self (hdistinct : Distinct same entries) (hmem : entry ∈ entries) :
    entryAt same entry.1 entries = some entry :=
  (entryAt_eq_some hsame hdistinct).mpr ⟨hmem, same_refl hsame entry.1⟩

/-- Distinct lists that agree on the members of a class agree on its entry. -/
theorem entryAt_of_mem_iff (hentries : Distinct same entries) (hothers : Distinct same others)
    (hmem : ∀ entry, same key entry.1 = true → (entry ∈ entries ↔ entry ∈ others)) :
    entryAt same key entries = entryAt same key others := by
  apply Option.ext
  intro entry
  rw [entryAt_eq_some hsame hentries, entryAt_eq_some hsame hothers]
  constructor
  · rintro ⟨hentry, hkey⟩
    exact ⟨(hmem entry hkey).mp hentry, hkey⟩
  · rintro ⟨hentry, hkey⟩
    exact ⟨(hmem entry hkey).mpr hentry, hkey⟩

theorem Distinct.nodup (hdistinct : Distinct same entries) : entries.Nodup := by
  apply List.Pairwise.imp _ hdistinct
  rintro left right hne rfl
  rw [same_refl hsame] at hne
  contradiction

theorem Distinct.perm (hdistinct : Distinct same entries) (hperm : entries.Perm others) :
    Distinct same others :=
  (hperm.pairwise_iff fun h => (same_comm hsame _ _).trans h).mp hdistinct

theorem Distinct.perm_of_mem (hentries : Distinct same entries) (hothers : Distinct same others)
    (h : ∀ entry, entry ∈ entries ↔ entry ∈ others) : entries.Perm others :=
  (perm_ext_iff_of_nodup (hentries.nodup hsame) (hothers.nodup hsame)).mpr h

theorem entryAt_perm (hdistinct : Distinct same entries) (hperm : entries.Perm others)
    (key : κ) : entryAt same key entries = entryAt same key others :=
  entryAt_of_mem_iff hsame hdistinct (hdistinct.perm hsame hperm) fun _ _ => hperm.mem_iff

/-- Distinct lists with the same entry for every key differ in their order only. -/
theorem perm_of_entryAt (hentries : Distinct same entries) (hothers : Distinct same others)
    (h : ∀ key, entryAt same key entries = entryAt same key others) : entries.Perm others := by
  apply hentries.perm_of_mem hsame hothers
  intro entry
  constructor
  · intro hentry
    exact (mem_of_entryAt ((h entry.1).symm.trans (entryAt_self hsame hentries hentry))).1
  · intro hentry
    exact (mem_of_entryAt ((h entry.1).trans (entryAt_self hsame hothers hentry))).1

/-! ## Edits of a list -/

theorem sets_append (habsent : entryAt same key entries = none) (value : ν) :
    Sets same key (some (key, value)) entries (entries ++ [(key, value)]) := by
  intro other
  rw [entryAt_append, entryAt_cons]
  by_cases hother : same other key = true
  · rw [if_pos hother, if_pos hother, entryAt_congr hsame hother, habsent, Option.none_or]
  · rw [if_neg hother, if_neg hother]
    exact Option.or_none

theorem Distinct.append_absent (hdistinct : Distinct same entries)
    (habsent : entryAt same key entries = none) (value : ν) :
    Distinct same (entries ++ [(key, value)]) := by
  refine pairwise_append.mpr ⟨hdistinct, pairwise_singleton _ _, ?_⟩
  intro entry hentry added hadded
  rw [mem_singleton.mp hadded, same_comm hsame]
  exact entryAt_eq_none.mp habsent entry hentry

section Middle

variable {front back : List (κ × ν)} (hfront : ∀ passed ∈ front, same key passed.1 = false)
  (hentry : same key entry.1 = true)

include hfront hentry

theorem entryAt_middle (hother : same other key = true) :
    entryAt same other (front ++ entry :: back) = some entry := by
  have hpassed : entryAt same key front = none := entryAt_eq_none.mpr hfront
  rw [entryAt_congr hsame hother, entryAt_append, hpassed, Option.none_or, entryAt_cons,
    if_pos hentry]

omit hfront in
theorem entryAt_around (hother : ¬same other key = true) :
    entryAt same other (front ++ entry :: back) = entryAt same other (front ++ back) := by
  have hne : ¬same other entry.1 = true := by
    intro h
    exact hother (hsame.trans h (hsame.symm hentry))
  rw [entryAt_append, entryAt_append, entryAt_cons, if_neg hne]

theorem sets_middle (value : ν) :
    Sets same key (some (entry.1, value)) (front ++ entry :: back)
      (front ++ (entry.1, value) :: back) := by
  intro other
  by_cases hother : same other key = true
  · rw [if_pos hother]
    exact entryAt_middle hsame hfront hentry hother
  · rw [if_neg hother, entryAt_around hsame hentry hother]
    exact @entryAt_around _ _ _ _ _ (entry.1, value) hsame _ _ hentry hother

theorem sets_removed (hdistinct : Distinct same (front ++ entry :: back)) :
    Sets same key none (front ++ entry :: back) (front ++ back) := by
  intro other
  by_cases hother : same other key = true
  · rw [if_pos hother, entryAt_congr hsame hother, entryAt_append, entryAt_eq_none.mpr hfront,
      Option.none_or]
    have hback := (pairwise_cons.mp (pairwise_append.mp hdistinct).2.1).1
    rw [entryAt_congr hsame hentry]
    exact entryAt_eq_none.mpr hback
  · rw [if_neg hother, entryAt_around hsame hentry hother]

end Middle

omit hsame in
theorem Distinct.middle {front back : List (κ × ν)} {value : ν}
    (hdistinct : Distinct same (front ++ entry :: back)) :
    Distinct same (front ++ (entry.1, value) :: back) := by
  rw [Distinct, pairwise_append, pairwise_cons] at hdistinct ⊢
  obtain ⟨hfront, ⟨hentry, hback⟩, hacross⟩ := hdistinct
  refine ⟨hfront, ⟨hentry, hback⟩, ?_⟩
  intro left hleft right hright
  rcases mem_cons.mp hright with rfl | hright
  · exact hacross left hleft entry mem_cons_self
  · exact hacross left hleft right (mem_cons_of_mem _ hright)

omit hsame in
theorem Distinct.removed {front back : List (κ × ν)}
    (hdistinct : Distinct same (front ++ entry :: back)) : Distinct same (front ++ back) :=
  hdistinct.sublist ((List.Sublist.refl front).append (sublist_cons_self entry back))

section Selection

variable {select : κ × ν → Option (κ × ν)}
  (hkeep : ∀ {entry kept : κ × ν}, select entry = some kept → kept.1 = entry.1)

include hkeep

omit hsame in
theorem mem_selected (hentry : entry ∈ entries.filterMap select) :
    ∃ stored ∈ entries, select stored = some entry ∧ entry.1 = stored.1 := by
  obtain ⟨stored, hstored, hselect⟩ := mem_filterMap.mp hentry
  exact ⟨stored, hstored, hselect, hkeep hselect⟩

omit hsame in
theorem Distinct.selected (hdistinct : Distinct same entries) :
    Distinct same (entries.filterMap select) := by
  apply List.Pairwise.filterMap select _ hdistinct
  intro left right hne left' hleft right' hright
  rw [hkeep hleft, hkeep hright]
  exact hne

theorem entryAt_selected (hdistinct : Distinct same entries) (key : κ) :
    entryAt same key (entries.filterMap select) = (entryAt same key entries).bind select := by
  induction entries with
  | nil => rfl
  | cons first rest ih =>
      obtain ⟨hfirst, hrest⟩ := pairwise_cons.mp hdistinct
      rw [entryAt_cons, filterMap_cons]
      by_cases hkey : same key first.1 = true
      · have habsent : entryAt same key rest = none := by
          rw [entryAt_congr hsame hkey]
          exact entryAt_eq_none.mpr hfirst
        rw [if_pos hkey, Option.bind_some]
        cases hselect : select first with
        | none => rw [ih hrest, habsent, Option.bind_none]
        | some kept => rw [entryAt_cons, hkeep hselect, if_pos hkey]
      · rw [if_neg hkey, ← ih hrest]
        cases hselect : select first with
        | none => rfl
        | some kept => rw [entryAt_cons, hkeep hselect, if_neg hkey]

end Selection

omit hsame in
theorem gathered_concat : gathered same key (entries ++ [entry]) =
    if same key entry.1 = true then putSlot (gathered same key entries) entry
    else gathered same key entries := by
  unfold gathered
  rw [filter_append, foldl_append]
  by_cases hkey : same key entry.1 = true
  · simp [hkey]
  · simp [hkey]

theorem gathered_of_distinct (hdistinct : Distinct same entries) (key : κ) :
    gathered same key entries = entryAt same key entries := by
  induction entries using List.reverseRecOn with
  | nil => rfl
  | append_singleton entries entry ih =>
      obtain ⟨hentries, -, hacross⟩ := pairwise_append.mp hdistinct
      rw [gathered_concat, ih hentries, entryAt_append, entryAt_cons]
      by_cases hkey : same key entry.1 = true
      · have habsent : entryAt same key entries = none := by
          rw [entryAt_congr hsame hkey]
          apply entryAt_eq_none.mpr
          intro other hother
          rw [same_comm hsame]
          exact hacross other hother entry mem_cons_self
        rw [if_pos hkey, if_pos hkey, habsent]
        rfl
      · rw [if_neg hkey, if_neg hkey]
        exact Option.or_none.symm

section

variable {ω : Type v} {others : List (κ × ω)} (hentries : Distinct same entries)
  (hothers : Distinct same others)
include hentries hothers

/-- Distinct lists with the same classes are of one length. -/
theorem length_of_classes
    (h : ∀ key, (entryAt same key entries).isSome = (entryAt same key others).isSome) :
    entries.length = others.length := by
  let setoid : Setoid κ := ⟨_, hsame⟩
  have hnodup : ∀ {μ : Type v} {items : List (κ × μ)}, Distinct same items →
      (items.map fun entry => Quotient.mk setoid entry.1).Nodup := by
    intro μ items hdistinct
    rw [nodup_iff_pairwise_ne, pairwise_map]
    apply hdistinct.imp
    intro left right hne heq
    rw [show same left.1 right.1 = true from Quotient.exact heq] at hne
    contradiction
  have hmem : ∀ {μ : Type v} {items : List (κ × μ)} (key : κ),
      Quotient.mk setoid key ∈ items.map (fun entry => Quotient.mk setoid entry.1) ↔
        (entryAt same key items).isSome = true := by
    intro μ items key
    rw [mem_map, entryAt, List.find?_isSome]
    constructor
    · rintro ⟨entry, hentry, heq⟩
      exact ⟨entry, hentry, hsame.symm (Quotient.exact heq)⟩
    · rintro ⟨entry, hentry, heq⟩
      exact ⟨entry, hentry, Quotient.sound (hsame.symm heq)⟩
  have hperm := (perm_ext_iff_of_nodup (hnodup hentries) (hnodup hothers)).mpr (by
    intro quotient
    induction quotient using Quotient.inductionOn with
    | h key => rw [hmem, hmem, h key])
  simpa using hperm.length_eq

/-- Of two distinct lists of one length neither has more classes than the other. -/
theorem classes_of_length (hlength : entries.length = others.length)
    (h : ∀ entry ∈ entries, (entryAt same entry.1 others).isSome = true) {other : κ × ω}
    (hother : other ∈ others) : (entryAt same other.1 entries).isSome = true := by
  let shared := others.filter fun item => (entryAt same item.1 entries).isSome
  have hshared : Distinct same shared := hothers.filter _
  have hclasses : entries.length = shared.length := by
    apply length_of_classes hsame hentries hshared
    intro key
    rw [Bool.eq_iff_iff, entryAt, entryAt, List.find?_isSome, List.find?_isSome]
    constructor
    · rintro ⟨entry, hentry, hkey⟩
      obtain ⟨item, hitem⟩ := Option.isSome_iff_exists.mp (h entry hentry)
      obtain ⟨hmem, hitemKey⟩ := mem_of_entryAt hitem
      refine ⟨item, mem_filter.mpr ⟨hmem, ?_⟩, hsame.trans hkey hitemKey⟩
      rw [entryAt, List.find?_isSome]
      exact ⟨entry, hentry, hsame.symm hitemKey⟩
    · rintro ⟨item, hitem, hkey⟩
      have hfound := (mem_filter.mp hitem).2
      rw [entryAt, List.find?_isSome] at hfound
      obtain ⟨entry, hentry, hitemKey⟩ := hfound
      exact ⟨entry, hentry, hsame.trans hkey hitemKey⟩
  have hall := length_filter_eq_length_iff.mp (hclasses.symm.trans hlength)
  exact hall other hother

end

section Lengths

variable (hentries : Distinct same entries) (hothers : Distinct same others)

include hentries hothers

omit hentries in
theorem Sets.perm {third : List (κ × ν)} {change : Option (κ × ν)} (hthird : Distinct same third)
    (h : Sets same key change entries others) (h' : Sets same key change entries third) :
    others.Perm third := by
  apply perm_of_entryAt hsame hothers hthird
  intro other
  rw [h other, h' other]

theorem Sets.length_added {value : ν} (h : Sets same key (some (key, value)) entries others)
    (habsent : entryAt same key entries = none) : others.length = entries.length + 1 := by
  have hperm := Sets.perm hsame hothers
    (hentries.append_absent hsame habsent value) h (sets_append hsame habsent value)
  rw [hperm.length_eq, length_append, length_singleton]

theorem Sets.length_changed (h : Sets same key (some entry) entries others) {stored : κ × ν}
    (hstored : entryAt same key entries = some stored) : others.length = entries.length := by
  apply length_of_classes hsame hothers hentries
  intro other
  rw [h other]
  split
  · rename_i hother
    rw [entryAt_congr hsame hother, hstored]
    rfl
  · rfl

theorem Sets.length_removed (h : Sets same key none entries others) {stored : κ × ν}
    (hstored : entryAt same key entries = some stored) : others.length + 1 = entries.length := by
  obtain ⟨hkey, front, back, rfl, hfront⟩ := entryAt_split hstored
  have hperm := Sets.perm hsame hothers hentries.removed h (sets_removed hsame hfront hkey hentries)
  rw [hperm.length_eq, length_append, length_append, length_cons, Nat.add_assoc]

end Lengths

end Classes

end Durable7.Foundation
