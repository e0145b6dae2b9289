import Durable7.FingerTree.PersistentChunkedBitSet.Combination
import Durable7.Foundation.Branching

/-!
# Histories of chunked bit sets

A version stands beside the finite set of indexes that its history calls for.  Ranks and
selections read the sorted list of that set.
-/

namespace Durable7.FingerTree.PersistentChunkedBitSet

open Foundation List Measured.ValidTree BitVec Int Bool

/-! ## Listing -/

theorem collect_eq (wordIndex : Int) (bits : BitVec 64) :
    collect wordIndex bits = (places bits).map fun place : Nat => wordIndex * 64 + place := by
  induction bits using collect.induct with
  | case1 => rw [collect, dif_pos rfl, places_eq_nil.mpr rfl, map_nil]
  | case2 bits hbits ih => rw [collect, dif_neg hbits, ih, places_cons hbits, map_cons,
      countTrailingZeros]

variable {bitIndex : Int} {chunk : BitChunk}

theorem mem_chunkBits :
    bitIndex ∈ chunkBits chunk ↔
      chunk.wordIndex = bitIndex / 64 ∧ testBit chunk.bits (bitIndex % 64).toNat = true := by
  rw [chunkBits, collect_eq, mem_map]
  constructor
  · rintro ⟨place, hplace, rfl⟩
    rw [mem_places] at hplace
    have hlt := lt_of_getLsbD hplace
    have hoffset : ((chunk.wordIndex * 64 + place) % 64).toNat = place := by omega
    rw [hoffset]
    exact ⟨by omega, hplace⟩
  · rintro ⟨hword, hbit⟩
    exact ⟨_, mem_places.mpr hbit, by omega⟩

theorem length_chunkBits (chunk : BitChunk) : (chunkBits chunk).length = popCount chunk.bits := by
  rw [chunkBits, collect_eq, length_map, length_places, popCount]

theorem length_listed (chunks : List BitChunk) :
    (chunks.flatMap chunkBits).length = (Measured.foldMeasure chunks : BitMeasure).popCount := by
  rw [foldMeasure_popCount, length_flatMap]
  congr 1
  exact map_congr_left fun chunk _ => length_chunkBits chunk

theorem mem_listed {chunks : List BitChunk} (h : WellFormed chunks) :
    bitIndex ∈ chunks.flatMap chunkBits ↔ bitAt chunks bitIndex = true := by
  rw [mem_flatMap]
  constructor
  · rintro ⟨chunk, hchunk, hmem⟩
    obtain ⟨hword, hbit⟩ := mem_chunkBits.mp hmem
    rw [bitAt, ← hword, wordAt_of_mem h.increasing hchunk]
    exact hbit
  · intro hbit
    cases hfound : findKey compare BitChunk.wordIndex (bitIndex / 64) chunks with
    | none =>
        rw [bitAt, wordAt, hfound, testBit] at hbit
        exact absurd hbit (by rw [Option.map_none, Option.getD_none, getLsbD_zero]; decide)
    | some chunk =>
        rw [bitAt, wordAt, hfound] at hbit
        obtain ⟨hchunk, hcompare⟩ := findKey_mem hfound
        exact ⟨chunk, hchunk, mem_chunkBits.mpr ⟨compare_eq_iff_eq.mp hcompare, hbit⟩⟩

theorem pairwise_listed {chunks : List BitChunk} (h : Increasing chunks) :
    (chunks.flatMap chunkBits).Pairwise (· < ·) := by
  rw [pairwise_flatMap]
  constructor
  · intro chunk _
    rw [chunkBits, collect_eq, pairwise_map]
    exact (pairwise_places chunk.bits).imp fun hlt => by omega
  · refine h.imp fun hlt first hfirst second hsecond => ?_
    have hwords := compare_lt_iff_lt.mp hlt
    rw [(mem_chunkBits.mp hfirst).1, (mem_chunkBits.mp hsecond).1] at hwords
    omega

section Reads

variable {members : Finset Int} {values : PersistentChunkedBitSet} (h : Holds values members)

include h

theorem Holds.mem_toList : bitIndex ∈ toList values ↔ bitIndex ∈ members := by
  rw [h.mem_iff]
  exact mem_listed h.wellFormed

theorem Holds.pairwise : (toList values).Pairwise (· < ·) := pairwise_listed h.wellFormed.increasing

theorem Holds.toFinset : (toList values).toFinset = members := by
  ext bitIndex
  rw [mem_toFinset, h.mem_toList]

theorem Holds.nodup : (toList values).Nodup := h.pairwise.imp ne_of_lt

theorem Holds.toList_eq : toList values = members.sort (· ≤ ·) := by
  rw [← h.toFinset]
  exact ((toFinset_sort (· ≤ ·) h.nodup).mpr (h.pairwise.imp le_of_lt)).symm

theorem Holds.card_filter (accepts : Int → Prop) [DecidablePred accepts] :
    (members.filter accepts).card = ((toList values).filter accepts).length := by
  have hfilter : members.filter accepts =
      ((toList values).filter fun bitIndex => decide (accepts bitIndex)).toFinset := by
    ext bitIndex
    rw [Finset.mem_filter, mem_toFinset, mem_filter, h.mem_toList, decide_eq_true_iff]
  rw [hfilter, toFinset_card_of_nodup (h.nodup.filter _)]

theorem Holds.popCount_eq : values.chunks.measure.popCount = members.card := by
  rw [measure_eq, ← length_listed, ← h.toFinset, toFinset_card_of_nodup h.nodup]
  rfl

theorem Holds.null_iff : null values = true ↔ members = ∅ := by
  rw [null, Measured.ValidTree.null_iff]
  constructor
  · intro hnil
    rw [← h.toFinset, toList, chunksOf, hnil]
    rfl
  · intro hempty
    cases hchunks : values.chunks.toList with
    | nil => rfl
    | cons chunk chunks =>
        have hmem : chunk ∈ chunksOf values := by
          rw [chunksOf, hchunks]
          exact mem_cons_self
        obtain ⟨place, hplace⟩ := exists_mem_of_ne_nil _
          (mt places_eq_nil.mp (h.wellFormed.nonzero chunk hmem))
        have hbit : chunk.wordIndex * 64 + place ∈ toList values := by
          refine mem_flatMap.mpr ⟨chunk, hmem, ?_⟩
          rw [chunkBits, collect_eq]
          exact mem_map_of_mem hplace
        rw [h.mem_toList, hempty] at hbit
        exact absurd hbit (Finset.notMem_empty _)

theorem Holds.validStructure : PersistentChunkedBitSet.validStructure values = true := by
  have hincreasing : ∀ chunks : List BitChunk, Increasing chunks →
      strictlyIncreasing chunks = true := by
    intro chunks hchunks
    induction chunks using strictlyIncreasing.induct with
    | case1 => rfl
    | case2 chunk => rfl
    | case3 left right rest ih =>
        obtain ⟨hfirst, hrest⟩ := increasing_cons.mp hchunks
        rw [strictlyIncreasing, and_eq_true, decide_eq_true_iff]
        exact ⟨hfirst right mem_cons_self, ih hrest⟩
  rw [PersistentChunkedBitSet.validStructure, and_eq_true, and_eq_true, and_eq_true,
    and_eq_true, all_eq_true, all_eq_true, beq_iff_eq, beq_iff_eq]
  refine ⟨⟨⟨⟨hincreasing _ h.wellFormed.increasing, fun chunk hchunk => ?_⟩,
    fun chunk hchunk => ?_⟩, ?_⟩, ?_⟩
  · exact decide_eq_true (h.wellFormed.nonzero chunk hchunk)
  · exact decide_eq_true (h.wellFormed.inRange chunk hchunk)
  · rw [measure_eq, foldMeasure_chunkCount]
    rfl
  · rw [measure_eq, ← length_listed]
    rfl

theorem Holds.member_eq (bitIndex : Int) :
    member bitIndex values = decide (bitIndex ∈ members) := by
  rw [Bool.eq_iff_iff, decide_eq_true_iff]
  unfold member
  split
  · rename_i hout
    refine iff_of_false Bool.false_ne_true fun hmem => ?_
    have hrange := h.range hmem
    omega
  · rw [h.mem_iff, bitAt]
    rcases splitAtWord_cases h.wellFormed (bitIndex / 64) with ⟨hsplit, hword, -, -⟩ |
      ⟨left, chunk, right, hsplit, hlist, hbelow, ⟨hfound, hword, -⟩ | ⟨hlt, hword, -⟩⟩
    · rw [hsplit, chunksOf, hword, testBit, getLsbD_zero]
    · rw [hsplit, chunksOf, hword]
      dsimp only
      rw [hfound, beq_self_eq_true, Bool.true_and]
    · rw [hsplit, chunksOf, hword, testBit, getLsbD_zero]
      dsimp only
      rw [beq_eq_false_iff_ne.mpr (ne_of_gt hlt), Bool.false_and]

end Reads

theorem filter_prefix (chunk : BitChunk) (hword : chunk.wordIndex = bitIndex / 64) :
    ((chunkBits chunk).filter fun other => decide (other ≤ bitIndex)).length =
      popCount (chunk.bits &&& prefixMask (bitIndex % 64).toNat) := by
  have hmask : ∀ place < 64, (prefixMask (bitIndex % 64).toNat).getLsbD place =
      decide (place ≤ (bitIndex % 64).toNat) := by
    intro place hplace
    unfold prefixMask
    split
    · rw [getLsbD_allOnes, decide_eq_true hplace, decide_eq_true (by omega)]
    · rw [bit, getLsbD_two_pow_sub_one (by omega)]
      exact decide_eq_decide.mpr Nat.lt_succ_iff
  rw [popCount, ← length_places, places_and_of_lt hmask, chunkBits, collect_eq, filter_map,
    length_map]
  congr 1
  apply filter_congr
  intro place _
  refine decide_eq_decide.mpr ?_
  dsimp only
  omega

theorem filter_around {left right : List BitChunk}
    (hleft : ∀ other ∈ left, other.wordIndex < bitIndex / 64)
    (hright : ∀ other ∈ right, bitIndex / 64 < other.wordIndex) :
    (((left ++ chunk :: right).flatMap chunkBits).filter
        fun other => decide (other ≤ bitIndex)).length =
      (Measured.foldMeasure left : BitMeasure).popCount +
        ((chunkBits chunk).filter fun other => decide (other ≤ bitIndex)).length := by
  have hbefore : (left.flatMap chunkBits).filter (fun other => decide (other ≤ bitIndex)) =
      left.flatMap chunkBits := by
    apply filter_eq_self.mpr
    intro other hother
    obtain ⟨origin, horigin, hmem⟩ := mem_flatMap.mp hother
    have hword := hleft origin horigin
    rw [(mem_chunkBits.mp hmem).1] at hword
    exact decide_eq_true (by omega)
  have hafter : (right.flatMap chunkBits).filter (fun other => decide (other ≤ bitIndex)) = [] := by
    apply filter_eq_nil_iff.mpr
    intro other hother
    obtain ⟨origin, horigin, hmem⟩ := mem_flatMap.mp hother
    have hword := hright origin horigin
    rw [(mem_chunkBits.mp hmem).1] at hword
    rw [decide_eq_true_iff]
    omega
  rw [flatMap_append, flatMap_cons, filter_append, filter_append, hbefore,
    hafter, append_nil, length_append, length_listed]

section Ranks

variable {members : Finset Int} {values : PersistentChunkedBitSet} (h : Holds values members)

include h

theorem Holds.rank_eq (bitIndex : Int) :
    rank bitIndex values = (members.filter (· ≤ bitIndex)).card := by
  unfold rank
  split
  · rename_i hnegative
    rw [eq_comm, Finset.card_eq_zero, Finset.filter_eq_empty_iff]
    intro other hother
    have hrange := h.range hother
    omega
  split
  · rename_i hlarge
    rw [Finset.filter_true_of_mem, h.popCount_eq]
    intro other hother
    have hrange := h.range hother
    omega
  rw [h.card_filter, toList]
  have hsplit_below : ∀ other ∈ below compare BitChunk.wordIndex (bitIndex / 64) (chunksOf values),
      other.wordIndex < bitIndex / 64 :=
    fun other hother => compare_lt_iff_lt.mp (mem_below.mp hother).2
  have hsplit_above : ∀ other ∈ above compare BitChunk.wordIndex (bitIndex / 64) (chunksOf values),
      bitIndex / 64 < other.wordIndex :=
    fun other hother => compare_gt_iff_gt.mp (mem_above.mp hother).2
  rcases splitAtWord_cases h.wellFormed (bitIndex / 64) with ⟨hsplit, -, hbelow, -⟩ |
    ⟨left, chunk, right, hsplit, hlist, hbelow, ⟨hfound, -, habove⟩ | ⟨hlt, -, habove⟩⟩
  · rw [hsplit]
    dsimp only
    rw [filter_eq_self.mpr, length_listed, measure_eq, chunksOf]
    intro other hother
    obtain ⟨origin, horigin, hmem⟩ := mem_flatMap.mp hother
    have hword := hsplit_below origin (by rw [chunksOf, hbelow]; exact horigin)
    rw [(mem_chunkBits.mp hmem).1] at hword
    exact decide_eq_true (by omega)
  · rw [hsplit]
    dsimp only
    rw [if_neg (not_not.mpr hfound), measure_eq, ← filter_prefix chunk hfound]
    rw [chunksOf, hbelow] at hsplit_below
    rw [chunksOf, habove] at hsplit_above
    rw [chunksOf, hlist]
    exact (filter_around hsplit_below hsplit_above).symm
  · rw [hsplit]
    dsimp only
    rw [if_pos (ne_of_gt hlt), measure_eq]
    rw [chunksOf, hbelow] at hsplit_below
    rw [chunksOf, habove] at hsplit_above
    rw [chunksOf, hlist]
    have hnone : (chunkBits chunk).filter (fun other => decide (other ≤ bitIndex)) = [] := by
      apply filter_eq_nil_iff.mpr
      intro other hother
      rw [(mem_chunkBits.mp hother).1] at hlt
      rw [decide_eq_true_iff]
      omega
    rw [filter_around hsplit_below fun other hother =>
      hsplit_above other (mem_cons_of_mem _ hother), hnone]
    rfl

end Ranks

theorem places_clearLowest (count : Nat) (bits : BitVec 64) :
    places (clearLowest count bits) = (places bits).drop count := by
  induction count generalizing bits with
  | zero => rfl
  | succ count ih =>
      rw [clearLowest, ih]
      by_cases hbits : bits = 0#64
      · rw [hbits, zero_and, places_eq_nil.mpr rfl, drop_nil, drop_nil]
      · rw [places_cons hbits, drop_succ_cons]

theorem select_local {localRank : Nat} (hrank : localRank < popCount chunk.bits) :
    (chunkBits chunk)[localRank]? =
      some (chunk.wordIndex * 64 + countTrailingZeros (clearLowest localRank chunk.bits)) := by
  have hlength : localRank < (places chunk.bits).length := by rwa [length_places]
  have hdrop := places_clearLowest localRank chunk.bits
  have hset : clearLowest localRank chunk.bits ≠ 0#64 := by
    intro hzero
    rw [hzero, places_eq_nil.mpr rfl] at hdrop
    exact absurd (drop_eq_nil_iff.mp hdrop.symm) (Nat.not_le.mpr hlength)
  rw [places_cons hset, drop_eq_getElem_cons hlength] at hdrop
  rw [chunkBits, collect_eq, List.getElem?_map, List.getElem?_eq_getElem hlength, Option.map_some,
    ← (List.cons.inj hdrop).1]
  rfl

theorem select_eq (selectedRank : Int) (values : PersistentChunkedBitSet) :
    select selectedRank values =
      if selectedRank < 0 then none else (toList values)[selectedRank.toNat]? := by
  have hsize : values.chunks.measure.popCount = (toList values).length := by
    rw [measure_eq, ← length_listed]
    rfl
  unfold select
  rw [hsize]
  by_cases hnegative : selectedRank < 0
  · rw [if_pos (.inl hnegative), if_pos hnegative]
  rw [if_neg hnegative]
  split
  · rw [List.getElem?_eq_none (by omega)]
  rename_i hin
  rcases split_weight foldMeasure_popCount values.chunks selectedRank.toNat with
    ⟨-, hsmall⟩ | ⟨left, chunk, right, hsplit, hlist, hbefore, hlocal⟩
  · rw [← foldMeasure_popCount, ← measure_eq, hsize] at hsmall
    omega
  · have hleft : left.measure.popCount = (left.toList.flatMap chunkBits).length := by
      rw [measure_eq, length_listed]
    rw [← foldMeasure_popCount, ← length_listed, ← hleft] at hbefore hlocal
    rw [locate, hsplit]
    change some _ = _
    rw [toList, chunksOf, hlist, flatMap_append, flatMap_cons, List.getElem?_append_right
      (hleft ▸ hbefore), ← hleft, List.getElem?_append_left, select_local]
    · omega
    · rw [length_chunkBits]
      omega

section Selections

variable {members : Finset Int} {values : PersistentChunkedBitSet} (h : Holds values members)

include h

theorem Holds.selected {position : Nat} (hselected : (toList values)[position]? = some bitIndex) :
    bitIndex ∈ members ∧ (members.filter (· < bitIndex)).card = position ∧
      (members.filter (· ≤ bitIndex)).card = position + 1 := by
  obtain ⟨hlength, hget⟩ := List.getElem?_eq_some_iff.mp hselected
  have hsplit : toList values = (toList values).take position ++
      bitIndex :: (toList values).drop (position + 1) := by
    rw [← hget, ← drop_eq_getElem_cons, take_append_drop]
  have hsorted := h.pairwise
  rw [hsplit, pairwise_append, pairwise_cons] at hsorted
  obtain ⟨-, ⟨hafter, -⟩, hacross⟩ := hsorted
  have hbefore : ∀ other ∈ (toList values).take position, other < bitIndex :=
    fun other hother => hacross other hother bitIndex mem_cons_self
  have htaken : ((toList values).take position).length = position :=
    length_take_of_le (Nat.le_of_lt hlength)
  refine ⟨h.mem_toList.mp (mem_of_getElem? hselected), ?_, ?_⟩
  · rw [h.card_filter, hsplit, filter_append, filter_eq_self.mpr,
      filter_cons_of_neg, filter_eq_nil_iff.mpr, append_nil, htaken]
    · intro other hother
      rw [decide_eq_true_iff]
      exact not_lt.mpr (le_of_lt (hafter other hother))
    · rw [decide_eq_true_iff]
      exact lt_irrefl _
    · exact fun other hother => decide_eq_true (hbefore other hother)
  · rw [h.card_filter, hsplit, filter_append, filter_eq_self.mpr,
      filter_cons_of_pos, filter_eq_nil_iff.mpr, length_append, htaken]
    · rfl
    · intro other hother
      rw [decide_eq_true_iff]
      exact not_le.mpr (hafter other hother)
    · exact decide_eq_true (le_refl _)
    · exact fun other hother => decide_eq_true (le_of_lt (hbefore other hother))

theorem Holds.length_toList : (toList values).length = members.card := by
  rw [← h.toFinset, toFinset_card_of_nodup h.nodup]

end Selections

/-! ## Branching histories -/

/-- One edit.  Versions are numbered in the order they were made. -/
inductive Edit where
  | empty
  | fromList (bitIndexes : List Int)
  | insert (version : Nat) (bitIndex : Int)
  | delete (version : Nat) (bitIndex : Int)
  | union (left right : Nat)
  | intersection (left right : Nat)
  | difference (left right : Nat)
  | symmetricDifference (left right : Nat)

def produce (versions : List PersistentChunkedBitSet) :
    Edit → Except String (List PersistentChunkedBitSet)
  | .empty => .ok [empty]
  | .fromList bitIndexes => (fromList bitIndexes).map fun made => [made]
  | .insert version bitIndex => onVersion versions version fun values =>
      (insert bitIndex values).map fun made => [made]
  | .delete version bitIndex => onVersion versions version fun values =>
      .ok [delete bitIndex values]
  | .union left right => .ok (onPair versions left right union).toList
  | .intersection left right => .ok (onPair versions left right intersection).toList
  | .difference left right => .ok (onPair versions left right difference).toList
  | .symmetricDifference left right => .ok (onPair versions left right symmetricDifference).toList

def SetModel.insert (bitIndex : Int) (members : Finset Int) : Except String (Finset Int) :=
  if bitIndex < 0 then .error "PersistentChunkedBitSet bit index must be nonnegative"
  else if bitIndex > maxBitIndex then
    .error "PersistentChunkedBitSet bit index must fit in a signed 32-bit integer"
  else .ok (Insert.insert bitIndex members)

def SetModel.fromList (bitIndexes : List Int) : Except String (Finset Int) :=
  bitIndexes.foldlM (fun members bitIndex => SetModel.insert bitIndex members) ∅

def SetModel.produce (models : List (Finset Int)) : Edit → Except String (List (Finset Int))
  | .empty => .ok [∅]
  | .fromList bitIndexes => (SetModel.fromList bitIndexes).map fun made => [made]
  | .insert version bitIndex => onVersion models version fun members =>
      (SetModel.insert bitIndex members).map fun made => [made]
  | .delete version bitIndex => onVersion models version fun members => .ok [members.erase bitIndex]
  | .union left right => .ok (onPair models left right (· ∪ ·)).toList
  | .intersection left right => .ok (onPair models left right (· ∩ ·)).toList
  | .difference left right => .ok (onPair models left right (· \ ·)).toList
  | .symmetricDifference left right => .ok (onPair models left right symmDiff).toList

theorem insert_agrees (bitIndex : Int) {values : PersistentChunkedBitSet} {members : Finset Int}
    (h : Holds values members) :
    Agrees Holds (insert bitIndex values) (SetModel.insert bitIndex members) := by
  unfold SetModel.insert
  split
  · rename_i hnegative
    rw [insert, if_pos hnegative]
    exact .error _
  rename_i hlow
  split
  · rename_i hlarge
    rw [insert, if_neg hlow, if_pos hlarge]
    exact .error _
  rename_i hhigh
  obtain ⟨after, hafter, hholds⟩ := insert_holds h (not_lt.mp hlow) (not_lt.mp hhigh)
  rw [hafter]
  exact .ok hholds

theorem fromList_agrees (bitIndexes : List Int) :
    Agrees Holds (fromList bitIndexes) (SetModel.fromList bitIndexes) := by
  unfold fromList SetModel.fromList
  apply foldlM_agrees
  · exact fun _ _ bitIndex h => insert_agrees bitIndex h
  · exact empty_holds

theorem produce_agrees (versions : List PersistentChunkedBitSet) (models : List (Finset Int))
    (edit : Edit) (h : List.Forall₂ Holds versions models) :
    Agrees (List.Forall₂ Holds) (produce versions edit) (SetModel.produce models edit) := by
  cases edit with
  | empty => exact .ok (.cons empty_holds .nil)
  | fromList bitIndexes => exact single_agrees (fromList_agrees bitIndexes)
  | insert version bitIndex =>
      exact onVersion_agrees h version fun _ _ hrefines =>
        single_agrees (insert_agrees bitIndex hrefines)
  | delete version bitIndex =>
      exact onVersion_agrees h version fun _ _ hrefines =>
        .ok (.cons (delete_holds hrefines bitIndex) .nil)
  | union left right =>
      exact .ok (onPair_refines h left right fun _ _ _ _ hleft hright => union_holds hleft hright)
  | intersection left right =>
      exact .ok (onPair_refines h left right fun _ _ _ _ hleft hright =>
        intersection_holds hleft hright)
  | difference left right =>
      exact .ok (onPair_refines h left right fun _ _ _ _ hleft hright =>
        difference_holds hleft hright)
  | symmetricDifference left right =>
      exact .ok (onPair_refines h left right fun _ _ _ _ hleft hright =>
        symmetricDifference_holds hleft hright)

/-- What a version shows of its set. -/
structure Observes (values : PersistentChunkedBitSet) (members : Finset Int) : Prop where
  valid : validStructure values = true
  bounded : ∀ bitIndex ∈ members, 0 ≤ bitIndex ∧ bitIndex ≤ maxBitIndex
  membership : ∀ bitIndex, member bitIndex values = decide (bitIndex ∈ members)
  listed : toList values = members.sort (· ≤ ·)
  counted : size values = members.card
  ranked : ∀ bitIndex, rank bitIndex values = (members.filter (· ≤ bitIndex)).card
  selected : ∀ position : Int, 0 ≤ position → position < members.card →
    ∃ bitIndex ∈ members, select position values = some bitIndex ∧
      ((members.filter (· < bitIndex)).card : Int) = position
  unselected : ∀ position : Int, position < 0 ∨ members.card ≤ position →
    select position values = none
  inverse : ∀ position bitIndex, select position values = some bitIndex →
    (rank bitIndex values : Int) = position + 1

theorem observes {values : PersistentChunkedBitSet} {members : Finset Int}
    (h : Holds values members) : Observes values members where
  valid := h.validStructure
  bounded _ hmem := h.range hmem
  membership := h.member_eq
  listed := h.toList_eq
  counted := h.popCount_eq
  ranked := h.rank_eq
  selected := by
    intro position hlow hhigh
    have hlength : position.toNat < (toList values).length := by
      rw [h.length_toList]
      omega
    obtain ⟨hmem, hbelow, -⟩ := h.selected (List.getElem?_eq_getElem hlength)
    refine ⟨_, hmem, ?_, by omega⟩
    rw [select_eq, if_neg (not_lt.mpr hlow), List.getElem?_eq_getElem hlength]
  unselected := by
    intro position hout
    rw [select_eq]
    split
    · rfl
    · rw [List.getElem?_eq_none]
      rw [h.length_toList]
      omega
  inverse := by
    intro position bitIndex hselected
    rw [select_eq] at hselected
    split at hselected
    · cases hselected
    · rw [h.rank_eq, (h.selected hselected).2.2]
      omega

section Relations

variable {left right : PersistentChunkedBitSet} {leftMembers rightMembers : Finset Int}
  (hleft : Holds left leftMembers) (hright : Holds right rightMembers)

include hleft hright

theorem isSubsetOf_eq : isSubsetOf left right = decide (leftMembers ⊆ rightMembers) := by
  rw [Bool.eq_iff_iff, isSubsetOf, (difference_holds hleft hright).null_iff, decide_eq_true_iff]
  exact Finset.sdiff_eq_empty_iff_subset

theorem overlaps_eq : overlaps left right = decide ¬Disjoint leftMembers rightMembers := by
  rw [Bool.eq_iff_iff, overlaps, Bool.not_eq_true', ← Bool.not_eq_true,
    (intersection_holds hleft hright).null_iff, decide_eq_true_iff,
    Finset.disjoint_iff_inter_eq_empty]

theorem setEquals_eq : setEquals left right = decide (leftMembers = rightMembers) := by
  refine decide_eq_decide.mpr ⟨fun hchunks => ?_, ?_⟩
  · ext bitIndex
    rw [hleft.mem_iff, hright.mem_iff, hchunks]
  · rintro rfl
    apply hleft.wellFormed.ext hright.wellFormed
    intro wordIndex
    apply eq_of_getLsbD_eq
    intro place hplace
    have hword : (wordIndex * 64 + place) / 64 = wordIndex := by omega
    have hoffset : ((wordIndex * 64 + place) % 64).toNat = place := by omega
    have hsame := (hleft.mem_iff (wordIndex * 64 + place)).symm.trans
      (hright.mem_iff (wordIndex * 64 + place))
    rw [bitAt, bitAt, hword, hoffset, ← Bool.eq_iff_iff] at hsame
    exact hsame

end Relations

/-- Every version of every branching history shows its set, and the relations of every two
versions are those of their sets. -/
theorem members_exact (edits : List Edit) :
    List.Forall₂ Observes (grow produce [] edits) (grow SetModel.produce [] edits) ∧
      (∀ edit, Agrees (List.Forall₂ Observes) (produce (grow produce [] edits) edit)
        (SetModel.produce (grow SetModel.produce [] edits) edit)) ∧
      ∀ first second,
        onPair (grow produce [] edits) first second isSubsetOf =
          onPair (grow SetModel.produce [] edits) first second
            (fun left right => decide (left ⊆ right)) ∧
        onPair (grow produce [] edits) first second overlaps =
          onPair (grow SetModel.produce [] edits) first second
            (fun left right => decide ¬Disjoint left right) ∧
        onPair (grow produce [] edits) first second setEquals =
          onPair (grow SetModel.produce [] edits) first second
            (fun left right => decide (left = right)) := by
  have hrefines : List.Forall₂ Holds (grow produce [] edits) (grow SetModel.produce [] edits) :=
    grow_refines produce_agrees .nil edits
  refine ⟨hrefines.imp fun _ _ => observes, fun edit => ?_, fun first second => ⟨?_, ?_, ?_⟩⟩
  · exact (produce_agrees _ _ edit hrefines).imp fun _ _ hadded => hadded.imp fun _ _ => observes
  · exact onPair_eq hrefines (fun _ _ _ _ => isSubsetOf_eq) first second
  · exact onPair_eq hrefines (fun _ _ _ _ => overlaps_eq) first second
  · exact onPair_eq hrefines (fun _ _ _ _ => setEquals_eq) first second

end Durable7.FingerTree.PersistentChunkedBitSet
