import Durable7.Foundation.Association
import Durable7.Hamt.MerkleSearchTree.Ranks
import Durable7.Hamt.MerkleSearchTree.Digests

/-!
# The tree as an ordered map

Read as pairs of keys and values, the entries of a tree are an ordered
association list.  The edits put and erase its pairs, and the queries are the
queries of that list.
-/

namespace Durable7.Hamt

open Foundation List MerkleEntry MerkleSearchTree

variable {k v : Type} {policy : MerkleSearchTreePolicy k v}

namespace MerkleSearchTree

/-- The pairs of a tree in comparer order, `toAscList`. -/
def toAscList (tree : MerkleSearchTree k v) : List (k × v) := tree.entries.map pair

end MerkleSearchTree

theorem InsertedEntries.pairs (hlaw : LawfulWirePolicy policy) {key : k} {value : v}
    {entries inserted : List (MerkleEntry k v)}
    (h : InsertedEntries policy key value entries inserted)
    (hordered : OrderedEntries policy entries) :
    inserted.map pair = putPair policy.compareMerkleKeys key value (entries.map pair) := by
  cases h with
  | @replaced below above existing stored heq hstored =>
      have hvalue : stored = value := by
        have hleft := hlaw.decodeValue_encode _ _ (hlaw.toLawfulPolicy.encode_value stored)
        have hright := hlaw.decodeValue_encode _ _ (hlaw.toLawfulPolicy.encode_value value)
        rw [hstored, hright] at hleft
        exact (Except.ok.inj hleft).symm
      have hsearch := hordered.searchable hlaw.toLawfulPolicy key
      simp only [map_append, map_cons]
      rw [putPair_match]
      · simp only [pair, hvalue]
      · intro pair hpair
        obtain ⟨other, hother, rfl⟩ := mem_map.mp hpair
        exact hsearch.below_of_match heq other hother
      · exact heq
  | @added below above entry hbelow habove hentry =>
      obtain ⟨-, rfl, rfl⟩ := createEntry_eq_ok.mp hentry
      simp only [map_append, map_cons]
      rw [putPair_gap]
      · rfl
      · intro pair hpair
        obtain ⟨other, hother, rfl⟩ := mem_map.mp hpair
        exact hbelow other hother
      · intro pair hpair
        obtain ⟨other, hother, rfl⟩ := mem_map.mp hpair
        exact habove other hother

theorem DeletedEntries.pairs (hlaw : LawfulPolicy policy) {key : k}
    {entries remaining : List (MerkleEntry k v)} (h : DeletedEntries policy key entries remaining)
    (hordered : OrderedEntries policy entries) :
    remaining.map pair = erasePair policy.compareMerkleKeys key (entries.map pair) := by
  cases h with
  | absent hne =>
      rw [erasePair_absent]
      intro pair hpair
      obtain ⟨other, hother, rfl⟩ := mem_map.mp hpair
      exact hne other hother
  | @removed below above entry heq =>
      have hsearch := hordered.searchable hlaw key
      simp only [map_append, map_cons]
      rw [erasePair_match _ heq]
      · intro pair hpair
        obtain ⟨other, hother, rfl⟩ := mem_map.mp hpair
        have hgt := hsearch.above_of_match heq other hother
        rw [probeKey] at hgt
        rw [pair, hgt]
        decide
      · intro pair hpair
        obtain ⟨other, hother, rfl⟩ := mem_map.mp hpair
        have hlt := hsearch.below_of_match heq other hother
        rw [probeKey] at hlt
        rw [pair, hlt]
        decide

section Steps

variable {tree updated : MerkleSearchTree k v} (h : CanonicalTree tree)

include h

theorem CanonicalTree.insert_pairs (hlaw : LawfulWirePolicy tree.policy) {key : k} {value : v}
    (hinsert : Hamt.insert key value tree = .ok updated) :
    CanonicalTree updated ∧ updated.policy = tree.policy ∧
      updated.toAscList =
        putPair tree.policy.compareMerkleKeys key value tree.toAscList := by
  obtain ⟨hpolicy, hroot, hentries⟩ := (insert_gives hlaw.toLawfulPolicy h key value).of_ok hinsert
  have hordered := (hentries.ordered hlaw.toLawfulPolicy h.ordered).1
  have hpairs := hentries.pairs hlaw h.ordered
  rw [← hpolicy] at hroot hordered
  exact ⟨⟨hroot, hordered⟩, hpolicy, hpairs⟩

theorem CanonicalTree.delete_pairs (hlaw : LawfulPolicy tree.policy) {key : k}
    (hdelete : Hamt.delete key tree = .ok updated) :
    CanonicalTree updated ∧ updated.policy = tree.policy ∧
      updated.toAscList = erasePair tree.policy.compareMerkleKeys key tree.toAscList := by
  obtain ⟨hpolicy, hroot, hentries⟩ := (delete_gives hlaw h key).of_ok hdelete
  have hordered := (hentries.ordered hlaw h.ordered).1
  have hpairs := hentries.pairs hlaw h.ordered
  rw [← hpolicy] at hroot hordered
  exact ⟨⟨hroot, hordered⟩, hpolicy, hpairs⟩

theorem CanonicalTree.clear_pairs :
    CanonicalTree (Hamt.clear tree) ∧ (Hamt.clear tree).policy = tree.policy ∧
      (Hamt.clear tree).toAscList = [] := by
  have hempty : CanonicalTree (emptyTree tree.policy) :=
    ⟨canonicalChild_none _, OrderedEntries.nil _⟩
  have hsize : tree.size = tree.entries.length := h.root.count_eq
  rw [Hamt.clear]
  by_cases hzero : tree.size = 0
  · rw [if_pos hzero]
    refine ⟨h, rfl, ?_⟩
    rw [toAscList, eq_nil_of_length_eq_zero (hsize.symm.trans hzero)]
    rfl
  · rw [if_neg hzero]
    exact ⟨hempty, rfl, rfl⟩

end Steps

theorem findKey_groupPending [Std.TransCmp policy.compareMerkleKeys]
    (pending : List ((k × v) × Nat)) (target : k) (h : pending.Pairwise fun left right =>
      (policy.compareMerkleKeys left.1.1 right.1.1).isLE) :
    findKey policy.compareMerkleKeys Prod.fst target (groupPending policy pending) =
      ((pending.map Prod.fst).filter fun pair =>
        policy.compareMerkleKeys pair.1 target == .eq).foldl putSlot none := by
  have hlast : ∀ (items : List ((k × v) × Nat)) (pair : k × v),
      (items.map Prod.fst).foldl putSlot (some pair) =
        some (pair.1, items.foldl (fun _ item => item.1.2) pair.2) := by
    intro items
    induction items with
    | nil => exact fun _ => rfl
    | cons item items ih => exact fun pair => ih (pair.1, item.1.2)
  induction pending using groupPending.induct policy with
  | case1 => simp [groupPending, findKey]
  | case2 firstKey firstValue index rest equivalentTo remaining ih =>
      obtain ⟨hfirst, hrest⟩ := pairwise_cons.mp h
      have hsplit : rest.takeWhile equivalentTo ++ remaining = rest := takeWhile_append_dropWhile
      have hsame : ∀ item ∈ rest.takeWhile equivalentTo,
          policy.compareMerkleKeys firstKey item.1.1 = .eq := by
        intro item hitem
        simpa [equivalentTo] using mem_takeWhile_imp hitem
      have habove : ∀ item ∈ remaining, policy.compareMerkleKeys firstKey item.1.1 = .lt :=
        lt_of_mem_dropWhile hfirst hrest
      rw [groupPending, findKey, List.find?_cons]
      conv_rhs => rw [map_cons, ← hsplit, map_append]
      by_cases heq : policy.compareMerkleKeys firstKey target = .eq
      · have hgroup : ((rest.takeWhile equivalentTo).map Prod.fst).filter (fun pair =>
            policy.compareMerkleKeys pair.1 target == .eq) =
              (rest.takeWhile equivalentTo).map Prod.fst := by
          rw [filter_eq_self]
          intro pair hpair
          obtain ⟨item, hitem, rfl⟩ := mem_map.mp hpair
          rw [← Std.TransCmp.congr_left (hsame item hitem), heq]
          rfl
        have hnone : (remaining.map Prod.fst).filter (fun pair =>
            policy.compareMerkleKeys pair.1 target == .eq) = [] := by
          rw [filter_eq_nil_iff]
          intro pair hpair hmatch
          obtain ⟨item, hitem, rfl⟩ := mem_map.mp hpair
          have hlt := habove item hitem
          have hmatch' : policy.compareMerkleKeys item.1.1 target = .eq := by simpa using hmatch
          rw [Std.TransCmp.congr_left heq, Std.OrientedCmp.eq_symm hmatch'] at hlt
          cases hlt
        rw [heq, filter_cons_of_pos (by simp [heq]), filter_append, hgroup, hnone,
          append_nil, foldl_cons]
        exact (hlast (rest.takeWhile equivalentTo) (firstKey, firstValue)).symm
      · have hnone : ((rest.takeWhile equivalentTo).map Prod.fst).filter (fun pair =>
            policy.compareMerkleKeys pair.1 target == .eq) = [] := by
          rw [filter_eq_nil_iff]
          intro pair hpair hmatch
          obtain ⟨item, hitem, rfl⟩ := mem_map.mp hpair
          rw [← Std.TransCmp.congr_left (hsame item hitem)] at hmatch
          exact heq (by simpa using hmatch)
        rw [beq_false_of_ne heq, filter_cons_of_neg (by simp [heq]), filter_append,
          hnone, nil_append]
        exact ih (hrest.sublist (dropWhile_sublist _))

theorem groupPending_sortPending (hlaw : LawfulPolicy policy) (source : List (k × v)) :
    groupPending policy (sortPending policy source) =
      putAll policy.compareMerkleKeys source := by
  have := hlaw.compare_total
  have hsorted : (sortPending policy source).Pairwise fun left right =>
      (policy.compareMerkleKeys left.1.1 right.1.1).isLE := by
    refine (sortPending_pairwise hlaw source).imp fun {left right} hle => ?_
    unfold comparePending at hle
    cases hcmp : policy.compareMerkleKeys left.1.1 right.1.1 <;> simp_all
  have hclass : ∀ target : k, (fun pair : k × v =>
      policy.compareMerkleKeys pair.1 target == .eq) =
        fun pair => decide (encodedKey policy pair.1 = encodedKey policy target) := by
    intro target
    funext pair
    by_cases heq : encodedKey policy pair.1 = encodedKey policy target
    · rw [decide_eq_true heq, (hlaw.compare_eq_iff_encodedKey _ _).mpr heq]
      rfl
    · rw [decide_eq_false heq,
        beq_false_of_ne fun hmatch => heq ((hlaw.compare_eq_iff_encodedKey _ _).mp hmatch)]
  refine (groupPending_sorted hlaw _ hsorted).ext (putAll_sorted source) fun target => ?_
  rw [findKey_groupPending _ _ hsorted, findKey_putAll, hclass, filter_sortPending hlaw]

theorem fromList_pairs (hlaw : LawfulPolicy policy) {source : List (k × v)}
    {tree : MerkleSearchTree k v} (h : fromList source policy = .ok tree) :
    CanonicalTree tree ∧ tree.policy = policy ∧
      tree.toAscList = putAll policy.compareMerkleKeys source := by
  obtain ⟨hcanonical, hpolicy, -⟩ := fromList_spec hlaw h
  refine ⟨hcanonical, hpolicy, ?_⟩
  obtain ⟨entries, hordered, hpairs, hbuild⟩ := fromList_eq hlaw source
  rw [hbuild, map_eq_ok] at h
  obtain ⟨root, hroot, rfl⟩ := h
  have houtcome := buildCanonical_ordered hordered
  rw [hroot] at houtcome
  rw [toAscList, entries_eq, houtcome.2, hpairs, groupPending_sortPending hlaw]

/-- What an edit does to the pairs. -/
def MapOperation.pairs (compare : k → k → Ordering) (pairs : List (k × v)) :
    MapOperation k v → List (k × v)
  | .insert key value => putPair compare key value pairs
  | .delete key => erasePair compare key pairs
  | .clear => []
  | .fromList source => putAll compare source

theorem CanonicalTree.apply_pairs {tree edited : MerkleSearchTree k v} (h : CanonicalTree tree)
    (hlaw : LawfulWirePolicy tree.policy) (operation : MapOperation k v)
    (hedit : operation.apply tree = .ok edited) :
    CanonicalTree edited ∧ edited.policy = tree.policy ∧
      edited.toAscList =
        operation.pairs tree.policy.compareMerkleKeys tree.toAscList := by
  cases operation with
  | insert key value => exact h.insert_pairs hlaw hedit
  | delete key => exact h.delete_pairs hlaw.toLawfulPolicy hedit
  | clear =>
      cases hedit
      exact h.clear_pairs
  | fromList source => exact fromList_pairs hlaw.toLawfulPolicy hedit

theorem CanonicalTree.applyAll_pairs (operations : List (MapOperation k v)) :
    ∀ {tree edited : MerkleSearchTree k v}, CanonicalTree tree →
      LawfulWirePolicy tree.policy →
      operations.foldlM MapOperation.apply tree = .ok edited →
      CanonicalTree edited ∧ edited.policy = tree.policy ∧
        edited.toAscList = operations.foldl
          (MapOperation.pairs tree.policy.compareMerkleKeys) tree.toAscList := by
  induction operations with
  | nil =>
      intro tree edited h _ hrun
      cases hrun
      exact ⟨h, rfl, rfl⟩
  | cons operation operations ih =>
      intro tree edited h hlaw hrun
      rw [foldlM_cons, bind_eq_ok] at hrun
      obtain ⟨next, hnext, hrest⟩ := hrun
      obtain ⟨hcanonical, hpolicy, hpairs⟩ := h.apply_pairs hlaw operation hnext
      rw [foldl_cons, ← hpairs, ← hpolicy]
      exact ih hcanonical (hpolicy ▸ hlaw) hrest

/-- A key between two bounds, both included. -/
def withinBounds (compare : k → k → Ordering) (minimumKey maximumKey : k) (pair : k × v) : Bool :=
  compare minimumKey pair.1 != .gt && compare pair.1 maximumKey != .gt

/-- A sound tree whose pairs and whose every query are those of an ordered map. -/
structure RefinesMap (pairs : List (k × v)) (tree : MerkleSearchTree k v) : Prop where
  valid : ∃ statistics, validateStructure tree = .ok statistics
  increasing : StrictlySorted tree.policy.compareMerkleKeys entryKey tree.entries
  pairs_eq : tree.toAscList = pairs
  lookup_eq : ∀ key, lookup key tree =
    (findKey tree.policy.compareMerkleKeys Prod.fst key pairs).map Prod.snd
  member_eq : ∀ key, member key tree =
    (findKey tree.policy.compareMerkleKeys Prod.fst key pairs).isSome
  range_eq : ∀ minimumKey maximumKey,
    tree.policy.compareMerkleKeys minimumKey maximumKey ≠ .gt →
      List.map pair <$> range minimumKey maximumKey tree =
        .ok (pairs.filter (withinBounds tree.policy.compareMerkleKeys minimumKey maximumKey))
  entryAtRank_eq : ∀ rank : Int, (entryAtRank rank tree).map pair =
    if rank < 0 then none else pairs[rank.toNat]?
  lowerBoundRank_eq : ∀ key, lowerBoundRank key tree =
    ((pairs.filter fun pair => tree.policy.compareMerkleKeys pair.1 key == .lt).length,
      (findKey tree.policy.compareMerkleKeys Prod.fst key pairs).isSome)

theorem CanonicalTree.refinesMap {tree : MerkleSearchTree k v} (h : CanonicalTree tree)
    (hlaw : LawfulPolicy tree.policy) : RefinesMap tree.toAscList tree where
  valid := by
    obtain ⟨statistics, hvalid, -⟩ := validateStructure_total hlaw h
    exact ⟨statistics, hvalid⟩
  increasing := h.ordered.sorted
  pairs_eq := rfl
  lookup_eq key := by
    rw [lookup, h.lookupEntry_eq hlaw, toAscList, findKey_map, Option.map_map]
    rfl
  member_eq key := by
    rw [member, h.lookupEntry_eq hlaw, toAscList, findKey_map, Option.isSome_map]
    rfl
  range_eq minimumKey maximumKey horder := by
    rw [h.range_eq hlaw horder, toAscList, filter_map]
    rfl
  entryAtRank_eq rank := by
    rw [h.entryAtRank_eq, toAscList]
    split
    · rfl
    · rw [List.getElem?_map]
  lowerBoundRank_eq key := by
    rw [h.lowerBoundRank_eq hlaw, toAscList, filter_map, length_map,
      findKey_map, Option.isSome_map, findKey, isSome_find?]
    rfl

end Durable7.Hamt
