import Durable7.Ordered.PersistentOrderedSet.Operations

/-!
# The two indexes of an insertion-ordered set

The deque lists the items with ascending stamps.  The hash map gives the stamp of the one item
of a class.
-/

namespace Durable7.Ordered.PersistentOrderedSet

open Foundation FingerTree Hamt HashMap OrderDeque Nat List

universe u

variable {D : Type → Type u} [OrderDeque D] {a : Type} {hashPolicy : HashPolicy a}

/-! ## Stamps -/

theorem fromInteger_eq {value : Int} (hlow : minBound ≤ value) (hhigh : value ≤ maxBound) :
    fromInteger value = value := by
  unfold minBound maxBound at *
  unfold fromInteger Int.bmod
  dsimp only
  split <;> omega

def Ascending (pairs : List (a × Int)) : Prop := pairs.Pairwise fun left right => left.2 < right.2

def InRange (stamp : Int) : Prop := minBound ≤ stamp ∧ stamp ≤ maxBound

theorem stampsAscending_iff (stamped : List (Entry a)) :
    stampsAscending stamped = true ↔ Ascending (stamped.map pairOf) := by
  rw [Ascending, pairwise_map]
  induction stamped with
  | nil => exact iff_of_true rfl .nil
  | cons first rest ih =>
      cases rest with
      | nil => exact iff_of_true rfl (pairwise_singleton _ _)
      | cons second rest =>
          have hstep : stampsAscending (first :: second :: rest) =
              (decide (first.entryStamp < second.entryStamp) && stampsAscending (second :: rest)) :=
            rfl
          rw [hstep, Bool.and_eq_true, decide_eq_true_iff, ih]
          constructor
          · rintro ⟨hfirst, hrest⟩
            refine pairwise_cons.mpr ⟨?_, hrest⟩
            intro other hother
            rcases mem_cons.mp hother with rfl | hother
            · exact hfirst
            · exact Int.lt_trans hfirst ((pairwise_cons.mp hrest).1 other hother)
          · intro h
            obtain ⟨hfirst, hrest⟩ := pairwise_cons.mp h
            exact ⟨hfirst second mem_cons_self, hrest⟩

/-- The items of a deque beside their stamps. -/
def listed (order : D (Entry a)) : List (a × Int) := (OrderDeque.toList order).map pairOf

def pairs (set : PersistentOrderedSet D a) : List (a × Int) := listed set.order

theorem toList_pairs (set : PersistentOrderedSet D a) : toList set = (pairs set).map Prod.fst := by
  rw [toList, pairs, listed, map_map]
  rfl

theorem size_eq (set : PersistentOrderedSet D a) : size set = (pairs set).length := by
  rw [size, count_eq, pairs, listed, length_map]

variable {back front : List (a × Int)} {pair : a × Int}

section

variable {order : D (Entry a)} (h : listed order = front ++ pair :: back)
include h

theorem index_listed :
    ∃ entry, index (front.length : Int) order = some entry ∧ pairOf entry = pair := by
  have hmapped : (listed order)[front.length]? = some pair := by
    rw [h, List.getElem?_append_right (Nat.le_refl _), Nat.sub_self]
    rfl
  rw [listed, List.getElem?_map, Option.map_eq_some_iff] at hmapped
  obtain ⟨entry, hentry, hpair⟩ := hmapped
  refine ⟨entry, ?_, hpair⟩
  rw [index_eq, if_neg (Int.not_lt.mpr (Int.natCast_nonneg _)), Int.toNat_natCast]
  exact hentry

theorem deleteAt_listed :
    ∃ trimmed, OrderDeque.deleteAt (front.length : Int) order = some trimmed ∧
      listed trimmed = front ++ back := by
  have hlength := congrArg List.length h
  have hdelete := deleteAt_eq (front.length : Int) order
  rw [listed, length_map, length_append, length_cons] at hlength
  rw [if_neg (by omega), Int.toNat_natCast, Option.map_eq_some_iff] at hdelete
  obtain ⟨trimmed, htrimmed, hlist⟩ := hdelete
  refine ⟨trimmed, htrimmed, ?_⟩
  rw [listed, hlist, ← eraseIdx_map]
  change (listed order).eraseIdx front.length = front ++ back
  rw [h, eraseIdx_append_of_length_le (Nat.le_refl _), Nat.sub_self]
  rfl

end

variable {order : D (Entry a)}

theorem insertAt_listed {index : Int} (entry : Entry a) (hlow : 0 ≤ index)
    (hhigh : index ≤ (listed order).length) :
    ∃ edited, insertEntry index entry order = .ok edited ∧
      listed edited =
        (listed order).take index.toNat ++ pairOf entry :: (listed order).drop index.toNat := by
  have hinsert := insertAt_eq index entry order
  rw [listed, length_map] at hhigh
  rw [if_neg (by omega), Option.map_eq_some_iff] at hinsert
  obtain ⟨edited, hedited, hlist⟩ := hinsert
  refine ⟨edited, ?_, ?_⟩
  · rw [insertEntry, hedited]
  · rw [listed, hlist, map_append, map_cons, map_take, map_drop, listed]

/-- A stamp that fits between two parts of a list. -/
structure Between (stamp : Int) (front back : List (a × Int)) : Prop where
  inRange : InRange stamp
  above : ∀ pair ∈ front, pair.2 < stamp
  below : ∀ pair ∈ back, stamp < pair.2

variable {stamp : Int}

theorem Ascending.placed {item : a} (h : Ascending (front ++ back))
    (hbetween : Between stamp front back) :
    Ascending (front ++ (item, stamp) :: back) := by
  obtain ⟨hfront, hback, hacross⟩ := pairwise_append.mp h
  refine pairwise_append.mpr ⟨hfront, pairwise_cons.mpr ⟨hbetween.below, hback⟩, ?_⟩
  intro left hleft right hright
  rcases mem_cons.mp hright with rfl | hright
  · exact hbetween.above left hleft
  · exact hacross left hleft right hright

theorem index_pair {position : Int} {entry : Entry a} (h : index position order = some entry) :
    0 ≤ position ∧ (listed order)[position.toNat]? = some (pairOf entry) := by
  rw [index_eq] at h
  split at h
  · cases h
  · rw [listed, List.getElem?_map, h]
    exact ⟨by omega, rfl⟩

variable {items : List (a × Int)}

theorem getElem_lt (h : Ascending items) {first second : Nat}
    {left right : a × Int} (hlt : first < second) (hleft : items[first]? = some left)
    (hright : items[second]? = some right) : left.2 < right.2 := by
  obtain ⟨hfirst, rfl⟩ := List.getElem?_eq_some_iff.mp hleft
  obtain ⟨hsecond, rfl⟩ := List.getElem?_eq_some_iff.mp hright
  exact pairwise_iff_getElem.mp h first second hfirst hsecond hlt

theorem getElem_le (h : Ascending items) {first second : Nat}
    {left right : a × Int} (hle : first ≤ second) (hleft : items[first]? = some left)
    (hright : items[second]? = some right) : left.2 ≤ right.2 := by
  rcases lt_or_eq_of_le hle with hlt | rfl
  · exact Int.le_of_lt (getElem_lt h hlt hleft hright)
  · rw [hleft] at hright
    cases hright
    exact Int.le_refl _

theorem between_of_getElem {position : Nat} (hrange : InRange stamp)
    (habove : ∀ other pair, other < position → items[other]? = some pair → pair.2 < stamp)
    (hbelow : ∀ other pair, position ≤ other → items[other]? = some pair → stamp < pair.2) :
    Between stamp (items.take position) (items.drop position) := by
  refine ⟨hrange, ?_, ?_⟩
  · intro pair hpair
    obtain ⟨other, hother⟩ := List.getElem?_of_mem hpair
    rw [List.getElem?_take] at hother
    split at hother
    · rename_i hlt
      exact habove other pair hlt hother
    · cases hother
  · intro pair hpair
    obtain ⟨other, hother⟩ := List.getElem?_of_mem hpair
    rw [List.getElem?_drop] at hother
    exact hbelow _ pair (le_add_right _ _) hother

theorem pickStamp_between {index : Int}
    (hascending : Ascending (listed order)) (hrange : ∀ pair ∈ listed order, InRange pair.2)
    (hlow : 0 ≤ index) (h : pickStamp order index = some stamp) :
    Between stamp ((listed order).take index.toNat) ((listed order).drop index.toNat) := by
  have hcount : count order = (listed order).length := by rw [count_eq, listed, length_map]
  have hfirstEq : (first order).map pairOf = (listed order)[0]? := by
    rw [first_eq, List.head?_eq_getElem?, listed, List.getElem?_map]
  have hlastEq : (last order).map pairOf = (listed order).getLast? := by
    rw [last_eq, listed, List.getLast?_map]
  unfold pickStamp at h
  rw [hcount] at h
  have hindexed : ∀ {position : Int} {entry : Entry a},
      OrderDeque.index position order = some entry → 0 ≤ position ∧
        (listed order)[position.toNat]? = some (pairOf entry) := index_pair
  generalize listed order = items at *
  split at h
  · rename_i hnil
    have hitems : items = [] := length_eq_zero_iff.mp (by omega)
    cases h
    rw [hitems, take_nil, drop_nil]
    exact ⟨⟨by decide, by decide⟩, forall_mem_nil _, forall_mem_nil _⟩
  split at h
  · rename_i hzero
    obtain ⟨first, hfirst, h⟩ := Option.bind_eq_some_iff.mp h
    rw [hfirst] at hfirstEq
    have hmem := hrange _ (mem_of_getElem? hfirstEq.symm)
    have hstamp : (pairOf first).2 = first.entryStamp := rfl
    unfold InRange at hmem
    split at h
    · cases h
    · obtain rfl := Option.some.inj h
      unfold minBound maxBound stampStride at *
      rw [fromInteger_eq (by unfold minBound; omega) (by unfold maxBound; omega)]
      refine between_of_getElem ⟨by unfold minBound; omega, by unfold maxBound; omega⟩ ?_ ?_
      · intro other pair hother
        omega
      · intro other pair _ hpair
        have hle := getElem_le hascending (zero_le other) hfirstEq.symm hpair
        omega
  split at h
  · rename_i hend
    obtain ⟨last, hlast, h⟩ := Option.bind_eq_some_iff.mp h
    rw [hlast, List.getLast?_eq_getElem?] at hlastEq
    have hmem := hrange _ (mem_of_getElem? hlastEq.symm)
    have hstamp : (pairOf last).2 = last.entryStamp := rfl
    unfold InRange at hmem
    split at h
    · cases h
    · obtain rfl := Option.some.inj h
      unfold minBound maxBound stampStride at *
      rw [fromInteger_eq (by unfold minBound; omega) (by unfold maxBound; omega)]
      refine between_of_getElem ⟨by unfold minBound; omega, by unfold maxBound; omega⟩ ?_ ?_
      · intro other pair hother hpair
        have hle :=
          getElem_le hascending (show other ≤ items.length - 1 by omega) hpair hlastEq.symm
        omega
      · intro other pair hother hpair
        obtain ⟨hlt, -⟩ := List.getElem?_eq_some_iff.mp hpair
        omega
  · rename_i hnotZero hnotEnd
    obtain ⟨left, hleft, h⟩ := Option.bind_eq_some_iff.mp h
    obtain ⟨right, hright, h⟩ := Option.bind_eq_some_iff.mp h
    obtain ⟨-, hleft⟩ := hindexed hleft
    obtain ⟨-, hright⟩ := hindexed hright
    have hleftMem := hrange _ (mem_of_getElem? hleft)
    have hrightMem := hrange _ (mem_of_getElem? hright)
    have hleftStamp : (pairOf left).2 = left.entryStamp := rfl
    have hrightStamp : (pairOf right).2 = right.entryStamp := rfl
    unfold InRange at hleftMem hrightMem
    dsimp only at h
    split at h
    · cases h
    · obtain rfl := Option.some.inj h
      rw [fromInteger_eq (by omega) (by omega)]
      refine between_of_getElem ⟨by omega, by omega⟩ ?_ ?_
      · intro other pair hother hpair
        have hle := getElem_le hascending (show other ≤ (index - 1).toNat by omega) hpair hleft
        omega
      · intro other pair hother hpair
        have hle := getElem_le hascending (show index.toNat ≤ other by omega) hright hpair
        omega

/-! ## Two indexes -/

/-- The hash map holds the pairs: one class each, with ascending stamps. -/
structure Indexed (hashPolicy : HashPolicy a) (stamps : HashMap a Int) (pairs : List (a × Int)) :
    Prop where
  wellFormed : stamps.WellFormed
  policy_eq : stamps.policy = hashPolicy
  ascending : Ascending pairs
  inRange : ∀ pair ∈ pairs, InRange pair.2
  distinct : Distinct hashPolicy.equalKeys pairs
  entryOf_eq : ∀ key, entryOf stamps key = entryAt hashPolicy.equalKeys key pairs

theorem indexed_empty (hlawful : hashPolicy.Lawful) :
    Indexed hashPolicy (HashMap.emptyWith hashPolicy) [] where
  wellFormed := emptyWith_wellFormed hlawful
  policy_eq := rfl
  ascending := .nil
  inRange := forall_mem_nil _
  distinct := .nil
  entryOf_eq _ := rfl

theorem indexed_fromListWith (hlawful : hashPolicy.Lawful) {pairs : List (a × Int)}
    (hascending : Ascending pairs) (hrange : ∀ pair ∈ pairs, InRange pair.2)
    (hdistinct : Distinct hashPolicy.equalKeys pairs) :
    Indexed hashPolicy (HashMap.fromListWith hashPolicy pairs) pairs := by
  obtain ⟨hwellFormed, hpolicy, hentries⟩ := fromListWith_spec hlawful pairs
  refine ⟨hwellFormed, hpolicy, hascending, hrange, hdistinct, fun key => ?_⟩
  rw [hentries, gathered_of_distinct hlawful.equivalence hdistinct]

section Indexed

variable {stamps after : HashMap a Int} {pairs : List (a × Int)}

section

variable (h : Indexed hashPolicy stamps pairs)
include h

theorem Indexed.lawful : hashPolicy.Lawful := h.policy_eq ▸ h.wellFormed.lawful

theorem Indexed.equivalence :
    Equivalence fun left right => hashPolicy.equalKeys left right = true := h.lawful.equivalence

theorem Indexed.sublist {kept : List (a × Int)}
    (hkept : kept.Sublist pairs) : Ascending kept ∧ (∀ pair ∈ kept, InRange pair.2) ∧
      Distinct hashPolicy.equalKeys kept :=
  ⟨h.ascending.sublist hkept, fun pair hpair => h.inRange pair (hkept.subset hpair),
    h.distinct.sublist hkept⟩

theorem Indexed.cases (key : a) :
    (entryOf stamps key = none ∧ ∀ pair ∈ pairs, hashPolicy.equalKeys key pair.1 = false) ∨
    ∃ front pair back, pairs = front ++ pair :: back ∧
      entryOf stamps key = some pair ∧ hashPolicy.equalKeys key pair.1 = true ∧
      ∀ passed ∈ front, hashPolicy.equalKeys key passed.1 = false := by
  rw [h.entryOf_eq]
  cases hentry : entryAt hashPolicy.equalKeys key pairs with
  | none => exact .inl ⟨rfl, entryAt_eq_none.mp hentry⟩
  | some pair =>
      obtain ⟨hkey, front, back, hpairs, hfront⟩ := entryAt_split hentry
      exact .inr ⟨front, pair, back, hpairs, rfl, hkey, hfront⟩

end

theorem Indexed.entryOf_at (h : Indexed hashPolicy stamps (front ++ pair :: back)) :
    entryOf stamps pair.1 = some pair := by
  rw [h.entryOf_eq]
  exact entryAt_self h.equivalence h.distinct (mem_append_right _ mem_cons_self)

theorem Indexed.removed {key : a} (h : Indexed hashPolicy stamps (front ++ pair :: back))
    (hkey : hashPolicy.equalKeys key pair.1 = true)
    (hafter : HashMap.Becomes stamps after key none) :
    Indexed hashPolicy after (front ++ back) := by
  have hsublist : (front ++ back).Sublist (front ++ pair :: back) :=
    (List.Sublist.refl front).append (sublist_cons_self pair back)
  obtain ⟨hascending, hrange, hdistinct⟩ := h.sublist hsublist
  refine ⟨hafter.wellFormed, hafter.policy_eq.trans h.policy_eq, hascending, hrange, hdistinct, ?_⟩
  intro other
  have hfront : ∀ passed ∈ front, hashPolicy.equalKeys key passed.1 = false := by
    intro passed hpassed
    rw [same_congr h.equivalence hkey, same_comm h.equivalence]
    exact (pairwise_append.mp h.distinct).2.2 passed hpassed pair mem_cons_self
  rw [hafter.entryOf_eq, h.policy_eq, h.entryOf_eq,
    sets_removed h.equivalence hfront hkey h.distinct other]

theorem Indexed.placed {others : List (a × Int)} {item : a} (h : Indexed hashPolicy stamps others)
    (hrest : (front ++ back).Sublist others)
    (hothers : ∀ key, hashPolicy.equalKeys key item = false →
      entryAt hashPolicy.equalKeys key others = entryAt hashPolicy.equalKeys key (front ++ back))
    (habsent : ∀ pair ∈ front ++ back, hashPolicy.equalKeys item pair.1 = false)
    (hbetween : Between stamp front back)
    (hafter : HashMap.Becomes stamps after item (some (item, stamp))) :
    Indexed hashPolicy after (front ++ (item, stamp) :: back) := by
  obtain ⟨hascending, hrange, hdistinct⟩ := h.sublist hrest
  have hself := same_refl h.equivalence item
  refine ⟨hafter.wellFormed, hafter.policy_eq.trans h.policy_eq, hascending.placed hbetween, ?_, ?_,
    ?_⟩
  · intro pair hpair
    rcases mem_append.mp hpair with hpair | hpair
    · exact hrange pair (mem_append_left _ hpair)
    · rcases mem_cons.mp hpair with rfl | hpair
      · exact hbetween.inRange
      · exact hrange pair (mem_append_right _ hpair)
  · obtain ⟨hleft, hright, hacross⟩ := pairwise_append.mp hdistinct
    refine pairwise_append.mpr ⟨hleft, pairwise_cons.mpr ⟨?_, hright⟩, ?_⟩
    · intro pair hpair
      exact habsent pair (mem_append_right _ hpair)
    · intro left hmem right hother
      rcases mem_cons.mp hother with rfl | hother
      · rw [same_comm h.equivalence]
        exact habsent left (mem_append_left _ hmem)
      · exact hacross left hmem right hother
  · intro key
    rw [hafter.entryOf_eq, h.policy_eq]
    by_cases hkey : hashPolicy.equalKeys key item = true
    · have hfront : ∀ passed ∈ front, hashPolicy.equalKeys item passed.1 = false :=
        fun passed hpassed => habsent passed (mem_append_left _ hpassed)
      rw [if_pos hkey]
      exact (entryAt_middle h.equivalence hfront hself hkey).symm
    · rw [if_neg hkey, h.entryOf_eq, hothers key (Bool.eq_false_iff.mpr hkey)]
      exact (@entryAt_around _ _ _ _ _ (item, stamp) h.equivalence _ _ hself hkey).symm

theorem Indexed.size_eq (h : Indexed hashPolicy stamps pairs) : stamps.size = pairs.length := by
  rw [h.wellFormed.size_toList]
  refine (perm_of_entryAt h.equivalence
    (h.policy_eq ▸ h.wellFormed.distinct) h.distinct ?_).length_eq
  intro key
  rw [← h.entryOf_eq, entryOf, h.policy_eq]

end Indexed

/-- A set under a policy holds the items. -/
structure Holds (hashPolicy : HashPolicy a) (set : PersistentOrderedSet D a) (items : List a) :
    Prop where
  indexed : Indexed hashPolicy set.stamps (pairs set)
  items_eq : toList set = items

section Holds

variable {set : PersistentOrderedSet D a} {items : List a} (h : Holds hashPolicy set items)

include h

theorem Holds.policy_eq : policy set = hashPolicy := h.indexed.policy_eq

theorem Holds.size_eq : size set = items.length := by
  rw [PersistentOrderedSet.size_eq, ← h.items_eq, toList_pairs, length_map]

theorem Holds.validStructure_eq : validStructure set = true := by
  have hindexed := h.indexed
  have hsize : OrderDeque.count set.order = (set.stamps.size : Int) :=
    (PersistentOrderedSet.size_eq set).trans (congrArg Nat.cast hindexed.size_eq.symm)
  rw [validStructure, hindexed.wellFormed.validStructure_eq, hsize, beq_self_eq_true,
    (stampsAscending_iff (entries set)).mpr hindexed.ascending, Bool.and_true, Bool.true_and,
    Bool.true_and,
    all_eq_true]
  intro entry hentry
  have hmem : pairOf entry ∈ pairs set := mem_map_of_mem hentry
  obtain ⟨front, back, hpairs⟩ := append_of_mem hmem
  have hfound : entryOf set.stamps entry.entryItem = some (pairOf entry) :=
    Indexed.entryOf_at (hpairs ▸ hindexed)
  rw [entryMatches, hindexed.wellFormed.lookup_eq, hindexed.wellFormed.actualKey_eq, hfound,
    Option.map_some, Option.map_some, Option.any_some, hindexed.policy_eq, Bool.and_eq_true]
  exact ⟨beq_self_eq_true _, same_refl hindexed.equivalence _⟩

theorem Holds.indexOfStamp_eq (hpairs : pairs set = front ++ pair :: back) :
    indexOfStamp pair.2 set = .ok (front.length : Int) := by
  have hascending := h.indexed.ascending
  have hmonotone : (OrderDeque.toList set.order).Pairwise fun before after =>
      (compareStamp before pair.2 != .lt) = true → (compareStamp after pair.2 != .lt) = true := by
    refine (pairwise_map.mp hascending).imp ?_
    intro before after hlt hbefore
    rw [bne_iff_ne, compareStamp, Ne, Int.compare_eq_lt] at hbefore ⊢
    exact fun hafter => hbefore (Int.lt_trans hlt hafter)
  have hposition : (OrderDeque.toList set.order).findIdx
      (fun stored => compareStamp stored pair.2 != .lt) = front.length := by
    have hmapped : (OrderDeque.toList set.order).findIdx
        (fun stored => compareStamp stored pair.2 != .lt) =
          (pairs set).findIdx fun stored => compare stored.2 pair.2 != .lt := by
      rw [pairs, listed, findIdx_map]
      rfl
    rw [hpairs] at hascending hmapped
    obtain ⟨-, -, hacross⟩ := pairwise_append.mp hascending
    have hfront : front.findIdx (fun stored => compare stored.2 pair.2 != .lt) = front.length := by
      refine findIdx_eq_length_of_false fun stored hstored => ?_
      rw [bne_eq_false_iff_eq, Int.compare_eq_lt]
      exact hacross stored hstored pair mem_cons_self
    rw [hmapped, findIdx_append, hfront, if_neg (lt_irrefl _), findIdx_cons]
    have hself : (compare pair.2 pair.2 != .lt) = true := by
      rw [bne_iff_ne, Ne, Int.compare_eq_lt]
      exact Int.lt_irrefl _
    rw [hself]
    exact zero_add _
  obtain ⟨entry, hentry, hpair⟩ := index_listed hpairs
  rw [indexOfStamp, OrderDeque.sortedLowerBoundBy_eq _ _ _ hmonotone, hposition, hentry]
  dsimp only
  exact if_pos (congrArg Prod.snd hpair)

end Holds

end Durable7.Ordered.PersistentOrderedSet
