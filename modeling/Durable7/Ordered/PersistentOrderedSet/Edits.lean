import Durable7.Ordered.PersistentOrderedSet.Refinement
import Durable7.Foundation.Lists

/-!
# Edits of insertion-ordered sets

An edit makes the list its name says.  It fails only where it gives every item a new stamp and
there are more items than stamps.
-/

namespace Durable7.Ordered.PersistentOrderedSet

open Foundation FingerTree Hamt HashMap OrderDeque Int Nat List

universe u z

variable {D : Type → Type u} [OrderDeque D] {a : Type} {hashPolicy : HashPolicy a}

/-! ## The model -/

def ListModel.contains (same : a → a → Bool) (item : a) (items : List a) : Bool :=
  items.any (same item)

def ListModel.placed {b : Type z} (index : Nat) (item : b) (items : List b) : List b :=
  items.take index ++ item :: items.drop index

def ListModel.insert (same : a → a → Bool) (index : Nat) (item : a) (items : List a) : List a :=
  if contains same item items then items else placed index item items

def ListModel.position (same : a → a → Bool) (item : a) (items : List a) : Option Nat :=
  items.findIdx? (same item)

def ListModel.moveTo (same : a → a → Bool) (index : Nat) (item : a) (items : List a) :
    Option (List a) :=
  (position same item items).bind fun old =>
    items[old]?.map fun stored => placed index stored (items.eraseIdx old)

def ListModel.tryRemove (same : a → a → Bool) (item : a) (items : List a) : Option (List a) :=
  (position same item items).map items.eraseIdx

def ListModel.getRange {b : Type z} (index count : Int) (items : List b) : Option (List b) :=
  if index < 0 ∨ count < 0 ∨ index + count > items.length then none
  else some ((items.drop index.toNat).take count.toNat)

def ListModel.sortBy {b : Type z} (comparison : b → b → Ordering) (items : List b) : List b :=
  items.mergeSort fun left right => (comparison left right).isLE

/-- The first item of each class. -/
def ListModel.distinct (same : a → a → Bool) (items : List a) : List a :=
  items.foldl (fun kept item => if contains same item kept then kept else kept ++ [item]) []

def ListModel.outside (same : a → a → Bool) (other items : List a) : List a :=
  items.filter fun item => !contains same item other

def ListModel.union (same : a → a → Bool) (other items : List a) : List a :=
  items ++ outside same items (distinct same other)

def ListModel.intersection (same : a → a → Bool) (other items : List a) : List a :=
  items.filter fun item => contains same item other

def ListModel.symmetricDifference (same : a → a → Bool) (other items : List a) : List a :=
  outside same other items ++ outside same items (distinct same other)

/-- No two items of one class. -/
def Apart (same : a → a → Bool) (items : List a) : Prop :=
  items.Pairwise fun left right => same left right = false

/-! ## New stamps -/

/-- As many items as get stamps of their own. -/
def stampCapacity : Nat := 8796093022208

/-- An edit made a set of the expected items, or there are more than it can stamp. -/
inductive Makes (hashPolicy : HashPolicy a) :
    Outcome (PersistentOrderedSet D a) → List a → Prop where
  | made {made : PersistentOrderedSet D a} {expected : List a}
      (h : Holds hashPolicy made expected) :
      Makes hashPolicy (.ok made) expected
  | exhausted {expected : List a} (h : stampCapacity < expected.length) :
      Makes hashPolicy (.error .stampSpaceExhausted) expected

inductive MakesOption (hashPolicy : HashPolicy a) :
    Outcome (Option (PersistentOrderedSet D a)) → Option (List a) → Prop where
  | nothing : MakesOption hashPolicy (.ok none) none
  | made {made : PersistentOrderedSet D a} {expected : List a}
      (h : Holds hashPolicy made expected) :
      MakesOption hashPolicy (.ok (some made)) (some expected)
  | exhausted {expected : List a} (h : stampCapacity < expected.length) :
      MakesOption hashPolicy (.error .stampSpaceExhausted) (some expected)

theorem Makes.option {outcome : Outcome (PersistentOrderedSet D a)} {expected : List a}
    (h : Makes hashPolicy outcome expected) :
    MakesOption hashPolicy (outcome.map some) (some expected) := by
  cases h with
  | made h => exact .made h
  | exhausted h => exact .exhausted h

theorem makeEntry_ok (item : a) {index : Nat} (h : index < stampCapacity) :
    makeEntry item index = .ok ⟨index * stampStride, item⟩ := by
  have hbound : (index : Int) * stampStride ≤ maxBound := by
    unfold stampStride maxBound
    unfold stampCapacity at h
    omega
  have hlow : minBound ≤ (index : Int) * stampStride := by
    unfold stampStride minBound
    omega
  rw [makeEntry, stampForIndex, if_neg (not_lt.mpr hbound), fromInteger_eq hlow hbound]
  rfl

theorem makeEntry_error (item : a) {index : Nat} {problem : OrderedError}
    (h : makeEntry item index = .error problem) :
    problem = .stampSpaceExhausted ∧ stampCapacity ≤ index := by
  constructor
  · rw [makeEntry, stampForIndex] at h
    split at h
    · cases h
      rfl
    · cases h
  · by_contra hlt
    rw [makeEntry_ok item (not_le.mp hlt)] at h
    cases h

theorem emptyWith_holds (hlawful : hashPolicy.Lawful) :
    Holds hashPolicy (emptyWith hashPolicy : PersistentOrderedSet D a) [] := by
  have hnil : pairs (emptyWith hashPolicy : PersistentOrderedSet D a) = [] := by
    rw [pairs, listed, emptyWith, toList_empty]
    rfl
  refine ⟨?_, ?_⟩
  · rw [hnil]
    exact indexed_empty hlawful
  · rw [toList_pairs, hnil]
    rfl

theorem apart_iff {ν : Type z} {same : a → a → Bool} (pairs : List (a × ν)) :
    Distinct same pairs ↔ Apart same (pairs.map Prod.fst) := by
  rw [Distinct, Apart, pairwise_map]

theorem Holds.apart {set : PersistentOrderedSet D a} {items : List a}
    (h : Holds hashPolicy set items) :
    Apart hashPolicy.equalKeys items := by
  rw [← h.items_eq, toList_pairs, ← apart_iff]
  exact h.indexed.distinct

theorem buildFromItems_makes (hlawful : hashPolicy.Lawful) {items : List a}
    (hapart : Apart hashPolicy.equalKeys items) :
    Makes hashPolicy
      (buildFromItems hashPolicy items : Outcome (PersistentOrderedSet D a)) items := by
  rw [buildFromItems]
  cases hentries : items.zipIdx.mapM fun numbered => makeEntry numbered.1 numbered.2 with
  | error problem =>
      obtain ⟨⟨item, index⟩, hmem, herror⟩ := mapM_eq_error hentries
      obtain ⟨rfl, hle⟩ := makeEntry_error item herror
      have hlt := snd_lt_of_mem_zipIdx hmem
      exact .exhausted (by omega)
  | ok made =>
      have hmade := mapM_eq_ok.mp hentries
      by_cases hcapacity : items.length ≤ stampCapacity
      · have hlist : made.map pairOf =
            items.zipIdx.map fun numbered => (numbered.1, (numbered.2 : Int) * stampStride) := by
          refine ext_getElem ?_ fun index hleft hright => ?_
          · rw [length_map, length_map, hmade.length_eq]
          · rw [length_map] at hleft hright
            have hlt : index < stampCapacity := by
              rw [length_zipIdx] at hright
              omega
            have hentry := hmade.get hright hleft
            rw [get_eq_getElem, get_eq_getElem, makeEntry_ok _ (by
              rw [getElem_zipIdx, zero_add]
              exact hlt)] at hentry
            rw [getElem_map, getElem_map, ← Except.ok.inj hentry]
            rfl
        have hitems : (made.map pairOf).map Prod.fst = items := by
          rw [hlist, map_map]
          exact zipIdx_map_fst 0 items
        have hascending : Ascending (made.map pairOf) := by
          rw [hlist, Ascending, pairwise_map, pairwise_iff_getElem]
          intro first second hfirst hsecond hlt
          rw [getElem_zipIdx, getElem_zipIdx]
          unfold stampStride
          dsimp only
          omega
        have hrange : ∀ pair ∈ made.map pairOf, InRange pair.2 := by
          rw [hlist]
          intro pair hpair
          obtain ⟨⟨item, index⟩, hmem, rfl⟩ := mem_map.mp hpair
          have hlt := snd_lt_of_mem_zipIdx hmem
          unfold InRange minBound maxBound stampStride
          unfold stampCapacity at hcapacity
          dsimp only at hlt ⊢
          omega
        have hpairs : pairs (⟨fromList made, HashMap.fromListWith hashPolicy
            (made.map pairOf)⟩ : PersistentOrderedSet D a) = made.map pairOf := by
          rw [pairs, listed, toList_fromList]
        refine .made ⟨?_, ?_⟩
        · rw [hpairs]
          exact indexed_fromListWith hlawful hascending hrange ((apart_iff _).mpr (hitems ▸ hapart))
        · rw [toList_pairs, hpairs, hitems]
      · have hindex : stampCapacity < items.zipIdx.length := by
          rw [length_zipIdx]
          omega
        have hentry := hmade.get hindex (hmade.length_eq ▸ hindex)
        rw [get_eq_getElem, getElem_zipIdx, zero_add] at hentry
        have hfull :
            makeEntry items[stampCapacity] stampCapacity = .error .stampSpaceExhausted := by
          rw [makeEntry, stampForIndex, if_pos (by decide)]
          rfl
        rw [hfull] at hentry
        cases hentry

/-! ## One item -/

section Items

variable {set : PersistentOrderedSet D a} {items : List a} (h : Holds hashPolicy set items)

include h

theorem Holds.cases (key : a) :
    (entryOf set.stamps key = none ∧
      ListModel.position hashPolicy.equalKeys key items = none ∧
      ListModel.contains hashPolicy.equalKeys key items = false) ∨
    ∃ front pair back, pairs set = front ++ pair :: back ∧
      entryOf set.stamps key = some pair ∧ hashPolicy.equalKeys key pair.1 = true ∧
      ListModel.position hashPolicy.equalKeys key items = some front.length ∧
      ListModel.contains hashPolicy.equalKeys key items = true ∧
      items = front.map Prod.fst ++ pair.1 :: back.map Prod.fst := by
  have hitems := h.items_eq
  rw [toList_pairs] at hitems
  rcases h.indexed.cases key with ⟨habsent, hnone⟩ |
    ⟨front, pair, back, hpairs, hfound, hkey, hfront⟩
  · have hother : ∀ item ∈ items, hashPolicy.equalKeys key item = false := by
      intro item hitem
      rw [← hitems] at hitem
      obtain ⟨pair, hpair, rfl⟩ := mem_map.mp hitem
      exact hnone pair hpair
    refine .inl ⟨habsent, List.findIdx?_eq_none_iff.mpr hother, ?_⟩
    exact any_eq_false.mpr fun item hitem => Bool.eq_false_iff.mp (hother item hitem)
  · rw [hpairs, map_append, map_cons] at hitems
    refine .inr ⟨front, pair, back, hpairs, hfound, hkey, ?_, ?_, hitems.symm⟩
    · have hpassed : (front.map Prod.fst).findIdx? (hashPolicy.equalKeys key) = none := by
        refine List.findIdx?_eq_none_iff.mpr fun item hitem => ?_
        obtain ⟨passed, hmem, rfl⟩ := mem_map.mp hitem
        exact hfront passed hmem
      rw [ListModel.position, ← hitems, List.findIdx?_append, hpassed, List.findIdx?_cons,
        if_pos hkey, length_map]
      exact congrArg some (zero_add _)
    · rw [ListModel.contains, ← hitems]
      exact any_eq_true.mpr ⟨pair.1, mem_append_right _ mem_cons_self, hkey⟩

theorem Holds.member_eq (key : a) :
    member key set.stamps = ListModel.contains hashPolicy.equalKeys key items := by
  rw [h.indexed.wellFormed.member_eq]
  rcases h.cases key with ⟨hentry, -, hcontains⟩ | ⟨_, _, _, -, hentry, -, -, hcontains, -⟩
  · rw [hentry, hcontains]
    rfl
  · rw [hentry, hcontains]
    rfl

theorem Holds.map_take (index : Nat) :
    ((pairs set).take index).map Prod.fst = items.take index := by
  rw [List.map_take, ← toList_pairs, h.items_eq]

theorem Holds.map_drop (index : Nat) :
    ((pairs set).drop index).map Prod.fst = items.drop index := by
  rw [List.map_drop, ← toList_pairs, h.items_eq]

theorem rebuildInserted_makes {order : D (Entry a)} {rest : List a}
    (hrest : (listed order).map Prod.fst = rest) {index : Int} {item : a}
    (hapart : Apart hashPolicy.equalKeys (ListModel.placed index.toNat item rest)) :
    Makes hashPolicy
      (rebuildInserted order index item (policy set) : Outcome (PersistentOrderedSet D a))
      (ListModel.placed index.toNat item rest) := by
  have hmapped : (OrderDeque.toList order).map Entry.entryItem = rest := by
    rw [← hrest, listed, map_map]
    rfl
  rw [rebuildInserted, hmapped, h.policy_eq, splitAt_eq]
  exact buildFromItems_makes h.indexed.lawful hapart

omit h in
theorem apart_placed {same : a → a → Bool}
    (hsame : Equivalence fun left right => same left right = true) {index : Nat} {item : a}
    {rest : List a} (hrest : Apart same rest) (habsent : ∀ other ∈ rest, same item other = false) :
    Apart same (ListModel.placed index item rest) := by
  obtain ⟨hfront, hback, hacross⟩ := pairwise_append.mp ((take_append_drop index rest).symm ▸ hrest)
  refine pairwise_append.mpr ⟨hfront, pairwise_cons.mpr ⟨?_, hback⟩, ?_⟩
  · intro other hother
    exact habsent other (mem_of_mem_drop hother)
  · intro left hleft right hright
    rcases mem_cons.mp hright with rfl | hright
    · rw [same_comm hsame]
      exact habsent left (mem_of_mem_take hleft)
    · exact hacross left hleft right hright

theorem insertCore_makes {index : Int} (hlow : 0 ≤ index) (hhigh : index ≤ items.length)
    (item : a) :
    Makes hashPolicy (insertCore index item set)
      (ListModel.insert hashPolicy.equalKeys index.toNat item items) := by
  have hindexed := h.indexed
  have hmember := h.member_eq item
  rw [insertCore, hmember, ListModel.insert]
  rcases h.cases item with ⟨hentry, -, hcontains⟩ | ⟨_, _, _, -, -, -, -, hcontains, -⟩
  · rw [hcontains]
    have habsent : ∀ other ∈ items, hashPolicy.equalKeys item other = false := fun other hother =>
      Bool.eq_false_iff.mpr (any_eq_false.mp hcontains other hother)
    cases hstamp : pickStamp set.order index with
    | none =>
        exact rebuildInserted_makes h (by rw [← pairs, ← toList_pairs, h.items_eq])
          (apart_placed hindexed.equivalence h.apart habsent)
    | some stamp =>
        have hbetween := pickStamp_between hindexed.ascending hindexed.inRange hlow hstamp
        have hlength : index ≤ (listed set.order).length := by
          rw [← pairs, ← PersistentOrderedSet.size_eq, h.size_eq]
          exact hhigh
        obtain ⟨edited, hedited, hlisted⟩ := insertAt_listed ⟨stamp, item⟩ hlow hlength
        have hbecomes := insert_becomes hindexed.wellFormed item stamp
        rw [hentry] at hbecomes
        have hfree : ∀ pair ∈ pairs set, hashPolicy.equalKeys item pair.1 = false := by
          rw [hindexed.entryOf_eq] at hentry
          exact entryAt_eq_none.mp hentry
        dsimp only
        rw [if_neg Bool.false_ne_true, hedited]
        refine .made ⟨?_, ?_⟩
        · change Indexed hashPolicy _ (listed edited)
          rw [hlisted]
          refine hindexed.placed ?_ ?_ ?_ hbetween hbecomes
          · exact (take_append_drop index.toNat (listed set.order)).symm ▸ .refl _
          · intro key _
            rw [← pairs, take_append_drop]
          · rw [← pairs, take_append_drop]
            exact hfree
        · rw [toList_pairs]
          change (listed edited).map Prod.fst = _
          rw [hlisted, map_append, map_cons, ← pairs, h.map_take, h.map_drop]
          rfl
  · rw [hcontains]
    cases pickStamp set.order index with
    | none => exact .made h
    | some stamp => exact .made h

theorem moveExisting_makes {index : Int}
    (hindex : items ≠ [] → 0 ≤ index ∧ index < items.length) (item : a) :
    MakesOption hashPolicy (moveExisting index item set)
      (ListModel.moveTo hashPolicy.equalKeys index.toNat item items) := by
  have hindexed := h.indexed
  rw [moveExisting, hindexed.wellFormed.lookup_eq, ListModel.moveTo]
  rcases h.cases item with ⟨hentry, hposition, -⟩ |
    ⟨front, pair, back, hpairs, hentry, hkey, hposition, -, hitems⟩
  · rw [hentry, hposition]
    exact .nothing
  · have hlengths : items.length = front.length + back.length + 1 := by
      rw [hitems, length_append, length_cons, length_map, length_map]
      rfl
    obtain ⟨hlow, hhigh⟩ :=
      hindex (by rw [hitems]; exact append_ne_nil_of_right_ne_nil _ (cons_ne_nil _ _))
    have hfront : (front.map Prod.fst).length = front.length := length_map _
    have hstored : items[front.length]? = some pair.1 := by
      rw [hitems, ← hfront, List.getElem?_append_right (Nat.le_refl _), Nat.sub_self]
      rfl
    have hrest : items.eraseIdx front.length = front.map Prod.fst ++ back.map Prod.fst := by
      rw [hitems, ← hfront, eraseIdx_append_of_length_le (Nat.le_refl _), Nat.sub_self]
      rfl
    rw [hentry, hposition, Option.bind_some, hstored, Option.map_some, Option.map_some, hrest]
    dsimp only
    rw [h.indexOfStamp_eq hpairs, except_bind_ok]
    by_cases hsame : (front.length : Int) = index
    · rw [if_pos hsame]
      have hplaced : ListModel.placed index.toNat pair.1
          (front.map Prod.fst ++ back.map Prod.fst) = items := by
        rw [← hsame, toNat_natCast, ListModel.placed, ← hfront, take_left, drop_left, hitems]
      rw [hplaced]
      exact .made h
    · obtain ⟨entry, hentryAt, hpair⟩ := index_listed hpairs
      obtain ⟨trimmed, htrimmed, hlisted⟩ := deleteAt_listed hpairs
      have hitem : entry.entryItem = pair.1 := congrArg Prod.fst hpair
      have htrimmedItems :
          (listed trimmed).map Prod.fst = front.map Prod.fst ++ back.map Prod.fst := by
        rw [hlisted, map_append]
      have hsublist : (front ++ back).Sublist (pairs set) :=
        hpairs ▸ (List.Sublist.refl front).append (sublist_cons_self pair back)
      obtain ⟨hascending, hrange, -⟩ := hindexed.sublist hsublist
      have hfree : ∀ other ∈ front ++ back, hashPolicy.equalKeys pair.1 other.1 = false := by
        have hdistinct := hindexed.distinct
        rw [hpairs] at hdistinct
        obtain ⟨-, hright, hacross⟩ := pairwise_append.mp hdistinct
        intro other hother
        rcases mem_append.mp hother with hother | hother
        · rw [same_comm hindexed.equivalence]
          exact hacross other hother pair mem_cons_self
        · exact (pairwise_cons.mp hright).1 other hother
      rw [if_neg hsame, hentryAt, htrimmed]
      dsimp only
      rw [hitem]
      cases hstamp : pickStamp trimmed index with
      | none =>
          refine (rebuildInserted_makes h htrimmedItems ?_).option
          refine apart_placed hindexed.equivalence ?_ ?_
          · have hapart := h.apart
            rw [hitems] at hapart
            exact hapart.sublist ((List.Sublist.refl _).append (sublist_cons_self _ _))
          · rw [← map_append]
            intro other hother
            obtain ⟨found, hfound, rfl⟩ := mem_map.mp hother
            exact hfree found hfound
      | some stamp =>
          have hbetween := pickStamp_between (hlisted ▸ hascending) (hlisted ▸ hrange) hlow hstamp
          obtain ⟨edited, hedited, hplaced⟩ := insertAt_listed ⟨stamp, pair.1⟩ hlow
            (show index ≤ (listed trimmed).length by
              rw [hlisted, length_append]
              omega)
          have hbecomes := insert_becomes hindexed.wellFormed pair.1 stamp
          have hself : entryOf set.stamps pair.1 = some pair :=
            Indexed.entryOf_at (hpairs ▸ hindexed)
          rw [hself] at hbecomes
          dsimp only
          rw [hedited]
          refine .made ⟨?_, ?_⟩
          · change Indexed hashPolicy _ (listed edited)
            rw [hplaced]
            refine hindexed.placed ?_ ?_ ?_ hbetween hbecomes
            · rw [take_append_drop, hlisted]
              exact hsublist
            · intro key hother
              rw [take_append_drop, hlisted, hpairs]
              exact entryAt_around hindexed.equivalence (same_refl hindexed.equivalence pair.1)
                (Bool.eq_false_iff.mp hother)
            · rw [take_append_drop, hlisted]
              exact hfree
          · rw [toList_pairs]
            change (listed edited).map Prod.fst = _
            rw [hplaced, map_append, map_cons, map_take, map_drop, htrimmedItems]
            rfl

theorem tryRemove_makes (item : a) :
    MakesOption hashPolicy (tryRemove item set)
      (ListModel.tryRemove hashPolicy.equalKeys item items) := by
  have hindexed := h.indexed
  rw [tryRemove, ListModel.tryRemove]
  rcases h.cases item with ⟨hentry, hposition, -⟩ |
    ⟨front, pair, back, hpairs, hentry, hkey, hposition, -, hitems⟩
  · rcases tryRemove_becomes hindexed.wellFormed item with ⟨-, hremove⟩ |
      ⟨stored, after, hstored, -, -⟩
    · rw [hremove, hposition]
      exact .nothing
    · rw [hentry] at hstored
      cases hstored
  · rcases tryRemove_becomes hindexed.wellFormed item with ⟨hnone, -⟩ |
      ⟨stored, after, hstored, hremove, hafter⟩
    · rw [hentry] at hnone
      cases hnone
    · obtain rfl := Option.some.inj (hentry.symm.trans hstored)
      obtain ⟨trimmed, htrimmed, hlisted⟩ := deleteAt_listed hpairs
      rw [hremove, hposition]
      dsimp only
      rw [h.indexOfStamp_eq hpairs, except_bind_ok, htrimmed]
      refine .made ⟨?_, ?_⟩
      · change Indexed hashPolicy _ (listed trimmed)
        rw [hlisted]
        exact Indexed.removed (hpairs ▸ hindexed) hkey hafter
      · rw [toList_pairs]
        change (listed trimmed).map Prod.fst = _
        have hfront : (front.map Prod.fst).length = front.length := length_map _
        rw [hlisted, map_append, hitems, ← hfront,
          eraseIdx_append_of_length_le (Nat.le_refl _), Nat.sub_self]
        rfl

theorem deleteAt_makes (index : Int) :
    MakesOption hashPolicy (deleteAt index set) (ListModel.deleteAt index items) := by
  have hindexed := h.indexed
  have hsize := h.size_eq
  rw [PersistentOrderedSet.size_eq] at hsize
  rw [ListModel.deleteAt]
  by_cases hout : index < 0 ∨ index ≥ items.length
  · have hindex : OrderDeque.index index set.order = none := by
      rw [index_eq]
      split
      · rfl
      · rw [pairs, listed, length_map] at hsize
        exact List.getElem?_eq_none (by omega)
    rw [deleteAt, if_pos hout, hindex]
    exact .nothing
  · have hlt : index.toNat < (pairs set).length := by omega
    obtain ⟨front, pair, back, hpairs, hlength⟩ :
        ∃ front pair back, pairs set = front ++ pair :: back ∧ front.length = index.toNat :=
      ⟨_, _, _, (take_append_drop index.toNat (pairs set)).symm.trans
        (congrArg _ (drop_eq_getElem_cons hlt)), length_take_of_le (le_of_lt hlt)⟩
    obtain ⟨entry, hentry, hpair⟩ := index_listed hpairs
    obtain ⟨trimmed, htrimmed, hlisted⟩ := deleteAt_listed hpairs
    have hitem : entry.entryItem = pair.1 := congrArg Prod.fst hpair
    have hstamp : entry.entryStamp = pair.2 := congrArg Prod.snd hpair
    have hself : entryOf set.stamps pair.1 = some pair := Indexed.entryOf_at (hpairs ▸ hindexed)
    rw [hlength, toNat_of_nonneg (by omega)] at hentry htrimmed
    rcases tryRemove_becomes hindexed.wellFormed pair.1 with ⟨hnone, -⟩ |
      ⟨stored, after, hstored, hremove, hafter⟩
    · rw [hself] at hnone
      cases hnone
    · obtain rfl := Option.some.inj (hself.symm.trans hstored)
      rw [deleteAt, if_neg hout, hentry, htrimmed]
      dsimp only
      rw [hitem, hremove]
      dsimp only
      rw [hstamp, if_neg (not_not.mpr rfl)]
      refine .made ⟨?_, ?_⟩
      · change Indexed hashPolicy _ (listed trimmed)
        rw [hlisted]
        exact Indexed.removed (hpairs ▸ hindexed) (same_refl hindexed.equivalence _) hafter
      · rw [toList_pairs]
        change (listed trimmed).map Prod.fst = _
        have hitems := h.items_eq
        have hfront : (front.map Prod.fst).length = index.toNat := (length_map _).trans hlength
        rw [toList_pairs, hpairs, map_append, map_cons] at hitems
        rw [hlisted, map_append, ← hitems, ← hfront,
          eraseIdx_append_of_length_le (Nat.le_refl _), Nat.sub_self]
        rfl

end Items

theorem removeEntries_indexed {front gone back : List (a × Int)} {stamps : HashMap a Int}
    (h : Indexed hashPolicy stamps (front ++ (gone ++ back))) {removed : D (Entry a)}
    (hremoved : listed removed = gone) :
    Indexed hashPolicy (removeEntries removed stamps) (front ++ back) := by
  have hfold : removeEntries removed stamps =
      gone.foldl (fun current pair => HashMap.delete pair.1 current) stamps := by
    rw [← hremoved, listed, foldl_map]
    rfl
  rw [hfold]
  clear hfold hremoved removed
  induction gone generalizing stamps with
  | nil => exact h
  | cons pair gone ih =>
      refine ih (Indexed.removed h (same_refl h.equivalence pair.1) ?_)
      exact delete_becomes h.wellFormed pair.1

section Ranges

variable {set : PersistentOrderedSet D a} {items : List a} (h : Holds hashPolicy set items)

include h

theorem getRange_refines (index count : Int) :
    Option.Rel (Holds hashPolicy) (getRange index count set)
      (ListModel.getRange index count items) := by
  have hindexed := h.indexed
  have hlength : (items.length : Int) = (pairs set).length := by
    rw [← h.size_eq, PersistentOrderedSet.size_eq]
  rw [getRange, ListModel.getRange, h.size_eq]
  by_cases hout : index < 0 ∨ count < 0 ∨ index + count > items.length
  · rw [if_pos hout]
    dsimp only
    split
    · exact .none
    · rw [if_pos (by omega)]
      exact .none
  dsimp only
  rw [if_neg hout, if_neg (by omega), if_neg (by omega)]
  by_cases hwhole : count = items.length
  · have hstart : index = 0 := by omega
    rw [if_pos hwhole, hwhole, hstart, toNat_zero, drop_zero, toNat_natCast, take_length]
    exact .some h
  rw [if_neg hwhole]
  by_cases hzero : count = 0
  · rw [if_pos hzero, hzero, h.policy_eq, toNat_zero, take_zero]
    exact .some (emptyWith_holds hindexed.lawful)
  rw [if_neg hzero]
  have hfirst := splitAt_eq index set.order
  have horder : (OrderDeque.toList set.order).length = (pairs set).length := (length_map _).symm
  rw [if_neg (by omega), Option.map_eq_some_iff] at hfirst
  obtain ⟨⟨before, rest⟩, hparts, hlists⟩ := hfirst
  obtain ⟨hbefore, hrest⟩ := Prod.mk.inj hlists
  have hsecond := splitAt_eq count rest
  have hrestLength := congrArg List.length hrest
  rw [length_drop] at hrestLength
  rw [if_neg (by omega), Option.map_eq_some_iff] at hsecond
  obtain ⟨⟨kept, after⟩, hsplit, hpieces⟩ := hsecond
  obtain ⟨hkept, hafter⟩ := Prod.mk.inj hpieces
  have hlistedBefore : listed before = (pairs set).take index.toNat := by
    rw [listed, hbefore, map_take]
    rfl
  have hlistedKept : listed kept = ((pairs set).drop index.toNat).take count.toNat := by
    rw [listed, hkept, hrest, map_take, map_drop]
    rfl
  have hlistedAfter : listed after = ((pairs set).drop index.toNat).drop count.toNat := by
    rw [listed, hafter, hrest, map_drop, map_drop]
    rfl
  have hpairs : pairs set = [] ++ (listed before ++ (listed kept ++ listed after)) := by
    rw [hlistedBefore, hlistedKept, hlistedAfter, take_append_drop, take_append_drop, nil_append]
  rw [hparts, Option.bind_some, hsplit, Option.map_some]
  refine .some ⟨?_, ?_⟩
  · change Indexed hashPolicy _ (listed kept)
    dsimp only
    split
    · obtain ⟨hascending, hrange, hdistinct⟩ := hindexed.sublist
        (hlistedKept ▸ (take_sublist _ _).trans (drop_sublist _ _) :
          (listed kept).Sublist (pairs set))
      rw [h.policy_eq]
      exact indexed_fromListWith hindexed.lawful hascending hrange hdistinct
    · rw [hpairs] at hindexed
      have hfront := removeEntries_indexed hindexed rfl
      have hboth := @removeEntries_indexed _ _ _ hashPolicy (listed kept) (listed after) []
        (removeEntries before set.stamps) (by rw [append_nil]; exact hfront) after rfl
      rwa [append_nil] at hboth
  · rw [toList_pairs]
    change (listed kept).map Prod.fst = _
    rw [hlistedKept, map_take, h.map_drop]

theorem reverse_makes : Makes hashPolicy (reverse set) items.reverse := by
  have hsize := h.size_eq
  rw [reverse]
  split
  · rename_i hsmall
    have hsame : items.reverse = items := by
      match items with
      | [] => rfl
      | [item] => rfl
      | first :: second :: rest =>
          rw [length_cons, length_cons] at hsize
          omega
    rw [hsame]
    exact .made h
  · rw [h.policy_eq, h.items_eq]
    refine buildFromItems_makes h.indexed.lawful (pairwise_reverse.mpr ?_)
    exact h.apart.imp fun hapart => by rwa [same_comm h.indexed.equivalence]

theorem sorted_entries (comparison : a → a → Ordering) :
    ((entries set).mergeSort fun left right => (compareEntry comparison left right).isLE).map
        Entry.entryItem = ListModel.sortBy comparison items := by
  have hcongr : (entries set).Pairwise fun left right =>
      (compareEntry comparison left right).isLE =
        (comparison left.entryItem right.entryItem).isLE := by
    refine (pairwise_map.mp h.indexed.ascending).imp fun {left right} hlt => ?_
    have hstamps : compare left.entryStamp right.entryStamp = .lt := Int.compare_eq_lt.mpr hlt
    rw [compareEntry]
    cases comparison left.entryItem right.entryItem with
    | lt => rfl
    | eq =>
        dsimp only
        rw [hstamps]
        rfl
    | gt => rfl
  rw [mergeSort_congr hcongr, ListModel.sortBy, ← h.items_eq, toList]
  exact map_mergeSort fun _ _ _ _ => rfl

theorem sortBy_makes (comparison : a → a → Ordering) :
    Makes hashPolicy (sortBy comparison set) (ListModel.sortBy comparison items) := by
  have hsorted := sorted_entries h comparison
  have hsize := h.size_eq
  have hpermutation := mergeSort_perm (entries set)
    fun left right => (compareEntry comparison left right).isLE
  rw [sortBy]
  split
  · have hsame : ListModel.sortBy comparison items = items := by
      match items with
      | [] => exact mergeSort_nil
      | [item] => exact mergeSort_singleton item
      | first :: second :: rest =>
          rw [length_cons, length_cons] at hsize
          omega
    rw [hsame]
    exact .made h
  split
  · rename_i hascending
    have hstamped : ∀ {stamped : List (Entry a)}, Ascending (stamped.map pairOf) →
        stamped.Pairwise fun left right => left.entryStamp < right.entryStamp :=
      pairwise_map.mp
    have hsame := hpermutation.eq_of_pairwise (fun left right _ _ hleft hright =>
        absurd (lt_trans hleft hright) (lt_irrefl _))
      (hstamped ((stampsAscending_iff _).mp hascending)) (hstamped h.indexed.ascending)
    rw [hsame] at hsorted
    rw [← hsorted]
    exact .made ⟨h.indexed, rfl⟩
  · rw [hsorted, h.policy_eq]
    refine buildFromItems_makes h.indexed.lawful ?_
    have hperm : (ListModel.sortBy comparison items).Perm items := mergeSort_perm _ _
    exact (hperm.pairwise_iff fun hapart => (same_comm h.indexed.equivalence _ _).trans hapart).mpr
      h.apart

end Ranges

end Durable7.Ordered.PersistentOrderedSet
