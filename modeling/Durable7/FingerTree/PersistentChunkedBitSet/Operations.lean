import Durable7.FingerTree.Measured.Searches
import Durable7.Foundation.Lists
import Mathlib.Data.Finset.Sort
import Mathlib.Data.Int.ConditionallyCompleteOrder
import Mathlib.Order.ConditionallyCompleteLattice.Basic

/-!
# Chunked bit sets

Ascending nonzero words in a measured tree.  The measure counts words and set bits and
remembers the last word, so a search by word is a split by the last word and a search by
rank is a split by the number of set bits.
-/

namespace Durable7.FingerTree

open Foundation Nat

structure PersistentChunkedBitSet.BitChunk where
  wordIndex : Int
  bits : BitVec 64
deriving DecidableEq

@[ext]
structure PersistentChunkedBitSet.BitMeasure where
  chunkCount : Nat
  popCount : Nat
  lastWord : Option Int

instance : Monoid PersistentChunkedBitSet.BitMeasure where
  one := ⟨0, 0, none⟩
  mul left right := ⟨left.chunkCount + right.chunkCount, left.popCount + right.popCount,
    right.lastWord.or left.lastWord⟩
  one_mul measure := by
    ext1
    · exact zero_add _
    · exact zero_add _
    · exact Option.or_none
  mul_one measure := by
    ext1
    · exact add_zero _
    · exact add_zero _
    · exact Option.none_or
  mul_assoc first second third := by
    ext1
    · exact add_assoc _ _ _
    · exact add_assoc _ _ _
    · exact Option.or_assoc.symm

def PersistentChunkedBitSet.popCount (bits : BitVec 64) : Nat := bits.cpop.toNat

instance : Measured PersistentChunkedBitSet.BitMeasure PersistentChunkedBitSet.BitChunk where
  measure chunk := ⟨1, PersistentChunkedBitSet.popCount chunk.bits, some chunk.wordIndex⟩

structure PersistentChunkedBitSet where
  chunks : Measured.ValidTree PersistentChunkedBitSet.BitMeasure PersistentChunkedBitSet.BitChunk

namespace PersistentChunkedBitSet

abbrev BitTree := Measured.ValidTree BitMeasure BitChunk

def maxBitIndex : Int := 2147483647

def bit (offset : Nat) : BitVec 64 := BitVec.twoPow 64 offset

def testBit (bits : BitVec 64) (offset : Nat) : Bool := bits.getLsbD offset

def setBit (bits : BitVec 64) (offset : Nat) : BitVec 64 := bits ||| bit offset

def clearBit (bits : BitVec 64) (offset : Nat) : BitVec 64 := bits &&& ~~~bit offset

def countTrailingZeros (bits : BitVec 64) : Nat := bits.ctz.toNat

/-! ## Reading -/

def empty : PersistentChunkedBitSet := ⟨.empty⟩

def size (values : PersistentChunkedBitSet) : Nat := values.chunks.measure.popCount

def null (values : PersistentChunkedBitSet) : Bool := values.chunks.null

def chunksOf (values : PersistentChunkedBitSet) : List BitChunk := values.chunks.toList

def splitAtWord (wordIndex : Int) (chunks : BitTree) : Option (BitTree × BitChunk × BitTree) :=
  chunks.split fun measure => measure.lastWord.any fun last => decide (last ≥ wordIndex)

def member (bitIndex : Int) (values : PersistentChunkedBitSet) : Bool :=
  if bitIndex < 0 ∨ bitIndex > maxBitIndex then false
  else
    match splitAtWord (bitIndex / 64) values.chunks with
    | some (_, chunk, _) =>
        chunk.wordIndex == bitIndex / 64 && testBit chunk.bits (bitIndex % 64).toNat
    | none => false

/-- The bits up to an offset. -/
def prefixMask (offset : Nat) : BitVec 64 :=
  if offset = 63 then BitVec.allOnes 64 else bit (offset + 1) - 1#64

def rank (bitIndex : Int) (values : PersistentChunkedBitSet) : Nat :=
  if bitIndex < 0 then 0
  else if bitIndex > maxBitIndex then values.chunks.measure.popCount
  else
    match splitAtWord (bitIndex / 64) values.chunks with
    | none => values.chunks.measure.popCount
    | some (left, chunk, _) =>
        if chunk.wordIndex ≠ bitIndex / 64 then left.measure.popCount
        else left.measure.popCount + popCount (chunk.bits &&& prefixMask (bitIndex % 64).toNat)

def clearLowest : Nat → BitVec 64 → BitVec 64
  | 0, bits => bits
  | count + 1, bits => clearLowest count (bits &&& (bits - 1#64))

def select (selectedRank : Int) (values : PersistentChunkedBitSet) : Option Int :=
  if selectedRank < 0 ∨ selectedRank ≥ values.chunks.measure.popCount then none
  else do
    let (before, chunk) ← values.chunks.locate fun measure =>
      decide (measure.popCount > selectedRank.toNat)
    let localRank := selectedRank.toNat - before.popCount
    some (chunk.wordIndex * 64 + countTrailingZeros (clearLowest localRank chunk.bits))

def collect (wordIndex : Int) (bits : BitVec 64) : List Int :=
  if hbits : bits = 0#64 then []
  else (wordIndex * 64 + countTrailingZeros bits) :: collect wordIndex (bits &&& (bits - 1#64))
termination_by bits.toNat
decreasing_by exact clear_lowest_lt hbits

def chunkBits (chunk : BitChunk) : List Int := collect chunk.wordIndex chunk.bits

def toList (values : PersistentChunkedBitSet) : List Int := (chunksOf values).flatMap chunkBits

def strictlyIncreasing : List BitChunk → Bool
  | [] => true
  | [_] => true
  | left :: right :: rest =>
      decide (left.wordIndex < right.wordIndex) && strictlyIncreasing (right :: rest)

def validStructure (values : PersistentChunkedBitSet) : Bool :=
  strictlyIncreasing (chunksOf values) &&
    (chunksOf values).all (fun chunk => decide (chunk.bits ≠ 0#64)) &&
    (chunksOf values).all (fun chunk =>
      decide (chunk.wordIndex ≥ 0 ∧ chunk.wordIndex ≤ maxBitIndex / 64)) &&
    values.chunks.measure.chunkCount == (chunksOf values).length &&
    values.chunks.measure.popCount == (toList values).length

def insert (bitIndex : Int) (values : PersistentChunkedBitSet) :
    Except String PersistentChunkedBitSet :=
  if bitIndex < 0 then .error "PersistentChunkedBitSet bit index must be nonnegative"
  else if bitIndex > maxBitIndex then
    .error "PersistentChunkedBitSet bit index must fit in a signed 32-bit integer"
  else
    let wordIndex := bitIndex / 64
    let offset := (bitIndex % 64).toNat
    match splitAtWord wordIndex values.chunks with
    | none => .ok ⟨values.chunks.snoc ⟨wordIndex, bit offset⟩⟩
    | some (left, found, right) =>
        if found.wordIndex = wordIndex ∧ testBit found.bits offset = true then .ok values
        else if found.wordIndex = wordIndex then
          .ok ⟨(left.snoc ⟨wordIndex, setBit found.bits offset⟩).append right⟩
        else .ok ⟨(left.snoc ⟨wordIndex, bit offset⟩).append (right.cons found)⟩

def delete (bitIndex : Int) (values : PersistentChunkedBitSet) : PersistentChunkedBitSet :=
  if bitIndex < 0 ∨ bitIndex > maxBitIndex then values
  else
    let wordIndex := bitIndex / 64
    let offset := (bitIndex % 64).toNat
    match splitAtWord wordIndex values.chunks with
    | some (left, found, right) =>
        if found.wordIndex = wordIndex ∧ testBit found.bits offset = true then
          let updated := clearBit found.bits offset
          if updated = 0#64 then ⟨left.append right⟩
          else ⟨(left.snoc ⟨wordIndex, updated⟩).append right⟩
        else values
    | none => values

def fromList (bitIndexes : List Int) : Except String PersistentChunkedBitSet :=
  bitIndexes.foldlM (fun values bitIndex => insert bitIndex values) empty

/-! ## Combining -/

/-- Words of one side are met by the empty word of the other. -/
def merge (operation : BitVec 64 → BitVec 64 → BitVec 64) (keepLeftOnly keepRightOnly : Bool) :
    List BitChunk → List BitChunk → List BitChunk
  | [], remaining => if keepRightOnly then remaining else []
  | remaining, [] => if keepLeftOnly then remaining else []
  | leftChunk :: leftRest, rightChunk :: rightRest =>
      if leftChunk.wordIndex < rightChunk.wordIndex then
        if keepLeftOnly then
          leftChunk :: merge operation keepLeftOnly keepRightOnly leftRest (rightChunk :: rightRest)
        else merge operation keepLeftOnly keepRightOnly leftRest (rightChunk :: rightRest)
      else if rightChunk.wordIndex < leftChunk.wordIndex then
        if keepRightOnly then
          rightChunk :: merge operation keepLeftOnly keepRightOnly (leftChunk :: leftRest) rightRest
        else merge operation keepLeftOnly keepRightOnly (leftChunk :: leftRest) rightRest
      else
        let combined := operation leftChunk.bits rightChunk.bits
        if combined = 0#64 then merge operation keepLeftOnly keepRightOnly leftRest rightRest
        else ⟨leftChunk.wordIndex, combined⟩ ::
          merge operation keepLeftOnly keepRightOnly leftRest rightRest
termination_by left right => left.length + right.length

def combineWords (operation : BitVec 64 → BitVec 64 → BitVec 64)
    (keepLeftOnly keepRightOnly : Bool) (left right : PersistentChunkedBitSet) :
    PersistentChunkedBitSet :=
  let merged := merge operation keepLeftOnly keepRightOnly (chunksOf left) (chunksOf right)
  if merged = chunksOf left then left else ⟨.fromList merged⟩

def union : PersistentChunkedBitSet → PersistentChunkedBitSet → PersistentChunkedBitSet :=
  combineWords (· ||| ·) true true

def intersection : PersistentChunkedBitSet → PersistentChunkedBitSet → PersistentChunkedBitSet :=
  combineWords (· &&& ·) false false

def difference : PersistentChunkedBitSet → PersistentChunkedBitSet → PersistentChunkedBitSet :=
  combineWords (fun left right => left &&& (right ^^^ BitVec.allOnes 64)) true false

def symmetricDifference :
    PersistentChunkedBitSet → PersistentChunkedBitSet → PersistentChunkedBitSet :=
  combineWords (· ^^^ ·) true true

def isSubsetOf (left right : PersistentChunkedBitSet) : Bool := null (difference left right)

def overlaps (left right : PersistentChunkedBitSet) : Bool := !null (intersection left right)

def setEquals (left right : PersistentChunkedBitSet) : Bool :=
  decide (chunksOf left = chunksOf right)

end PersistentChunkedBitSet

end Durable7.FingerTree

/-!
## Words of chunked bit sets

A sorted list of chunks is a function from word indexes to words, empty where no chunk
stands.  Edits change one word and combinations work word by word.
-/

namespace Durable7.FingerTree.PersistentChunkedBitSet

open Foundation List Measured.ValidTree Int

theorem foldMeasure_lastWord (chunks : List BitChunk) :
    (Measured.foldMeasure chunks : BitMeasure).lastWord =
      (chunks.map id).getLast?.map BitChunk.wordIndex := by
  rw [map_id]
  induction chunks with
  | nil => rfl
  | cons chunk chunks ih =>
      rw [Measured.foldMeasure_cons]
      change (Measured.foldMeasure chunks : BitMeasure).lastWord.or (some chunk.wordIndex) = _
      rw [ih]
      cases chunks with
      | nil => rfl
      | cons next chunks =>
          rw [List.getLast?_cons_cons]
          cases hlast : (next :: chunks).getLast? with
          | none => exact absurd hlast (by simp)
          | some last => rfl

theorem foldMeasure_popCount (chunks : List BitChunk) :
    (Measured.foldMeasure chunks : BitMeasure).popCount =
      (chunks.map fun chunk => popCount chunk.bits).sum := by
  induction chunks with
  | nil => rfl
  | cons chunk chunks ih =>
      rw [Measured.foldMeasure_cons, map_cons, sum_cons, ← ih]
      rfl

theorem foldMeasure_chunkCount (chunks : List BitChunk) :
    (Measured.foldMeasure chunks : BitMeasure).chunkCount = chunks.length := by
  induction chunks with
  | nil => rfl
  | cons chunk chunks ih =>
      rw [Measured.foldMeasure_cons, length_cons, ← ih, Nat.add_comm]
      rfl

/-! ### Words -/

def wordAt (chunks : List BitChunk) (wordIndex : Int) : BitVec 64 :=
  ((findKey compare BitChunk.wordIndex wordIndex chunks).map BitChunk.bits).getD 0#64

abbrev Increasing (chunks : List BitChunk) : Prop :=
  StrictlySorted compare BitChunk.wordIndex chunks

theorem wordAt_nil (wordIndex : Int) : wordAt [] wordIndex = 0#64 := rfl

theorem wordAt_cons (chunk : BitChunk) (chunks : List BitChunk) (wordIndex : Int) :
    wordAt (chunk :: chunks) wordIndex =
      if chunk.wordIndex = wordIndex then chunk.bits else wordAt chunks wordIndex := by
  unfold wordAt findKey
  rw [List.find?_cons]
  by_cases heq : chunk.wordIndex = wordIndex
  · have hself : compare chunk.wordIndex wordIndex = .eq := compare_eq_iff_eq.mpr heq
    rw [if_pos heq, hself]
    rfl
  · have hne : compare chunk.wordIndex wordIndex ≠ .eq :=
      fun hcompare => heq (Std.LawfulEqCmp.eq_of_compare hcompare)
    rw [if_neg heq, beq_eq_false_iff_ne.mpr hne]

variable {chunks : List BitChunk}

theorem wordAt_absent {wordIndex : Int}
    (h : ∀ chunk ∈ chunks, chunk.wordIndex ≠ wordIndex) : wordAt chunks wordIndex = 0#64 := by
  rw [wordAt, findKey_eq_none.mpr]
  · rfl
  · exact fun chunk hchunk hcompare => h chunk hchunk (Std.LawfulEqCmp.eq_of_compare hcompare)

theorem increasing_cons {chunk : BitChunk} :
    Increasing (chunk :: chunks) ↔
      (∀ other ∈ chunks, chunk.wordIndex < other.wordIndex) ∧ Increasing chunks := by
  rw [Increasing, StrictlySorted, pairwise_cons]
  refine and_congr_left' (forall₂_congr fun other _ => ?_)
  exact compare_lt_iff_lt

theorem wordAt_before {wordIndex : Int}
    (h : ∀ chunk ∈ chunks, wordIndex < chunk.wordIndex) : wordAt chunks wordIndex = 0#64 :=
  wordAt_absent fun chunk hchunk heq => absurd (h chunk hchunk) (heq ▸ lt_irrefl _)

theorem wordAt_of_mem (h : Increasing chunks) {chunk : BitChunk}
    (hchunk : chunk ∈ chunks) : wordAt chunks chunk.wordIndex = chunk.bits := by
  rw [wordAt, h.findKey_eq_some.mpr ⟨hchunk, Std.ReflCmp.compare_self⟩]
  rfl

/-- The chunk of a word, none when the word is empty. -/
def chunkOf (wordIndex : Int) (bits : BitVec 64) : List BitChunk :=
  if bits = 0#64 then [] else [⟨wordIndex, bits⟩]

section Place

variable {chunks : List BitChunk} (h : Increasing chunks) (wordIndex : Int) (bits : BitVec 64)

include h

theorem increasing_place :
    Increasing (below compare BitChunk.wordIndex wordIndex chunks ++ chunkOf wordIndex bits ++
      above compare BitChunk.wordIndex wordIndex chunks) := by
  unfold chunkOf
  split
  · rw [append_nil]
    exact h.erase
  · rw [append_assoc]
    exact h.replace Std.ReflCmp.compare_self

theorem wordAt_place (other : Int) :
    wordAt (below compare BitChunk.wordIndex wordIndex chunks ++ chunkOf wordIndex bits ++
      above compare BitChunk.wordIndex wordIndex chunks) other =
      if wordIndex = other then bits else wordAt chunks other := by
  have hself : compare wordIndex wordIndex = .eq := compare_eq_iff_eq.mpr rfl
  have herase := @StrictlySorted.findKey_erase _ _ _ BitChunk.wordIndex wordIndex _ _ h other
  have hreplace := h.findKey_replace
    (show compare (BitChunk.mk wordIndex bits).wordIndex wordIndex = .eq from hself) other
  by_cases heq : wordIndex = other
  · rw [if_pos (compare_eq_iff_eq.mpr heq)] at herase hreplace
    rw [if_pos heq, wordAt, chunkOf]
    split
    · rename_i hzero
      rw [append_nil, herase]
      exact hzero.symm
    · rw [append_assoc, singleton_append, hreplace]
      rfl
  · rw [if_neg (fun hcompare => heq (compare_eq_iff_eq.mp hcompare))] at herase hreplace
    rw [if_neg heq, wordAt, wordAt, chunkOf]
    split
    · rw [append_nil, herase]
    · rw [append_assoc, singleton_append, hreplace]

end Place

structure WellFormed (chunks : List BitChunk) : Prop where
  increasing : Increasing chunks
  nonzero : ∀ chunk ∈ chunks, chunk.bits ≠ 0#64
  inRange : ∀ chunk ∈ chunks, 0 ≤ chunk.wordIndex ∧ chunk.wordIndex ≤ maxBitIndex / 64

theorem WellFormed.place (h : WellFormed chunks) {wordIndex : Int}
    (hrange : 0 ≤ wordIndex ∧ wordIndex ≤ maxBitIndex / 64) (bits : BitVec 64) :
    WellFormed (below compare BitChunk.wordIndex wordIndex chunks ++ chunkOf wordIndex bits ++
      above compare BitChunk.wordIndex wordIndex chunks) := by
  have hcases : ∀ chunk ∈ below compare BitChunk.wordIndex wordIndex chunks ++
      chunkOf wordIndex bits ++ above compare BitChunk.wordIndex wordIndex chunks,
      chunk ∈ chunks ∨ (bits ≠ 0#64 ∧ chunk = ⟨wordIndex, bits⟩) := by
    intro chunk hchunk
    rw [mem_append, mem_append, mem_below, mem_above, chunkOf] at hchunk
    rcases hchunk with (hchunk | hchunk) | hchunk
    · exact .inl hchunk.1
    · split at hchunk
      · cases hchunk
      · rename_i hbits
        exact .inr ⟨hbits, mem_singleton.mp hchunk⟩
    · exact .inl hchunk.1
  refine ⟨increasing_place h.increasing wordIndex bits, fun chunk hchunk => ?_,
    fun chunk hchunk => ?_⟩
  · rcases hcases chunk hchunk with hold | ⟨hbits, rfl⟩
    · exact h.nonzero chunk hold
    · exact hbits
  · rcases hcases chunk hchunk with hold | ⟨-, rfl⟩
    · exact h.inRange chunk hold
    · exact hrange

theorem findKey_eq_wordAt (h : WellFormed chunks) (wordIndex : Int) :
    findKey compare BitChunk.wordIndex wordIndex chunks =
      (chunkOf wordIndex (wordAt chunks wordIndex)).head? := by
  unfold wordAt chunkOf
  cases hfound : findKey compare BitChunk.wordIndex wordIndex chunks with
  | none => rfl
  | some chunk =>
      obtain ⟨hchunk, hcompare⟩ := findKey_mem hfound
      rw [← Std.LawfulEqCmp.eq_of_compare hcompare]
      change some chunk = (if chunk.bits = 0#64 then [] else [chunk]).head?
      rw [if_neg (h.nonzero chunk hchunk)]
      rfl

theorem WellFormed.ext {left right : List BitChunk} (hleft : WellFormed left)
    (hright : WellFormed right) (h : ∀ wordIndex, wordAt left wordIndex = wordAt right wordIndex) :
    left = right := by
  apply hleft.increasing.ext hright.increasing
  intro wordIndex
  rw [findKey_eq_wordAt hleft, findKey_eq_wordAt hright, h]

theorem splitAtWord_cases {chunks : BitTree} (h : WellFormed chunks.toList) (wordIndex : Int) :
    (splitAtWord wordIndex chunks = none ∧ wordAt chunks.toList wordIndex = 0#64 ∧
      below compare BitChunk.wordIndex wordIndex chunks.toList = chunks.toList ∧
      above compare BitChunk.wordIndex wordIndex chunks.toList = []) ∨
    ∃ left chunk right, splitAtWord wordIndex chunks = some (left, chunk, right) ∧
      chunks.toList = left.toList ++ chunk :: right.toList ∧
      below compare BitChunk.wordIndex wordIndex chunks.toList = left.toList ∧
      ((chunk.wordIndex = wordIndex ∧ wordAt chunks.toList wordIndex = chunk.bits ∧
        above compare BitChunk.wordIndex wordIndex chunks.toList = right.toList) ∨
      (wordIndex < chunk.wordIndex ∧ wordAt chunks.toList wordIndex = 0#64 ∧
        above compare BitChunk.wordIndex wordIndex chunks.toList = chunk :: right.toList)) := by
  have hpredicate : ∀ measure : BitMeasure,
      (measure.lastWord.any fun last => decide (last ≥ wordIndex)) =
        measure.lastWord.any fun last => compare last wordIndex != .lt := by
    intro measure
    congr 1
    funext last
    rw [Bool.eq_iff_iff, decide_eq_true_iff, bne_iff_ne, Ne, compare_lt_iff_lt, not_lt]
  have hcases := @split_atLeast _ _ _ _ _ _ _ _ id BitChunk.wordIndex _
    foldMeasure_lastWord chunks (by rw [map_id]; exact h.increasing) _ wordIndex hpredicate
  rw [map_id] at hcases
  rcases hcases with ⟨hsplit, hfound, hbelow, habove⟩ |
    ⟨left, chunk, right, hsplit, hlist, hbelow, hplace⟩
  · refine .inl ⟨hsplit, ?_, hbelow, habove⟩
    rw [wordAt, hfound]
    rfl
  · rw [map_id] at hbelow
    refine .inr ⟨left, chunk, right, hsplit, hlist, hbelow, ?_⟩
    rcases hplace with ⟨hcompare, hfound, habove⟩ | ⟨hcompare, hfound, habove⟩
    · rw [map_id] at habove
      refine .inl ⟨Std.LawfulEqCmp.eq_of_compare hcompare, ?_, habove⟩
      rw [wordAt, hfound]
      rfl
    · rw [map_id] at habove
      refine .inr ⟨compare_gt_iff_gt.mp hcompare, ?_, habove⟩
      rw [wordAt, hfound]
      rfl

/-! ### Sets of bits -/

def bitAt (chunks : List BitChunk) (bitIndex : Int) : Bool :=
  testBit (wordAt chunks (bitIndex / 64)) (bitIndex % 64).toNat

structure Holds (values : PersistentChunkedBitSet) (members : Finset Int) : Prop where
  wellFormed : WellFormed (chunksOf values)
  mem_iff : ∀ bitIndex, bitIndex ∈ members ↔ bitAt (chunksOf values) bitIndex = true

theorem empty_holds : Holds empty ∅ := by
  have hchunks : chunksOf empty = [] := toList_empty
  refine ⟨?_, fun bitIndex => ?_⟩
  · rw [hchunks]
    exact ⟨.nil, forall_mem_nil _, forall_mem_nil _⟩
  · rw [hchunks, bitAt, wordAt_nil, testBit, BitVec.getLsbD_zero]
    exact iff_of_false (Finset.notMem_empty _) Bool.false_ne_true

theorem getLsbD_bit {offset other : Nat} (hoffset : offset < 64) :
    (bit offset).getLsbD other = decide (offset = other) := by
  rw [bit, BitVec.getLsbD_twoPow, decide_eq_true hoffset, Bool.true_and]

theorem offset_lt (bitIndex : Int) : (bitIndex % 64).toNat < 64 := by omega

theorem index_eq_iff {bitIndex other : Int} :
    other = bitIndex ↔
      bitIndex / 64 = other / 64 ∧ (bitIndex % 64).toNat = (other % 64).toNat := by omega

section Edits

variable {members : Finset Int} {values : PersistentChunkedBitSet} (h : Holds values members)

include h

theorem Holds.range {bitIndex : Int} (hmem : bitIndex ∈ members) :
    0 ≤ bitIndex ∧ bitIndex ≤ maxBitIndex := by
  rw [h.mem_iff, bitAt, testBit, wordAt] at hmem
  cases hfound : findKey compare BitChunk.wordIndex (bitIndex / 64) (chunksOf values) with
  | none =>
      rw [hfound] at hmem
      exact absurd hmem (by rw [Option.map_none, Option.getD_none, BitVec.getLsbD_zero]; decide)
  | some chunk =>
      obtain ⟨hchunk, hcompare⟩ := findKey_mem hfound
      have hrange := h.wellFormed.inRange chunk hchunk
      rw [compare_eq_iff_eq.mp hcompare, maxBitIndex] at hrange
      rw [maxBitIndex]
      omega

theorem Holds.placed {after : PersistentChunkedBitSet} {wordIndex : Int}
    (hrange : 0 ≤ wordIndex ∧ wordIndex ≤ maxBitIndex / 64) {bits : BitVec 64}
    (hchunks : chunksOf after =
      below compare BitChunk.wordIndex wordIndex (chunksOf values) ++ chunkOf wordIndex bits ++
        above compare BitChunk.wordIndex wordIndex (chunksOf values))
    {afterwards : Finset Int}
    (hmem : ∀ bitIndex, bitIndex ∈ afterwards ↔
      if wordIndex = bitIndex / 64 then testBit bits (bitIndex % 64).toNat = true
      else bitIndex ∈ members) :
    Holds after afterwards := by
  refine ⟨hchunks ▸ h.wellFormed.place hrange bits, fun bitIndex => ?_⟩
  rw [hmem, bitAt, hchunks, wordAt_place h.wellFormed.increasing]
  split
  · rfl
  · exact h.mem_iff bitIndex

theorem insert_holds {bitIndex : Int} (hlow : 0 ≤ bitIndex) (hhigh : bitIndex ≤ maxBitIndex) :
    ∃ after, PersistentChunkedBitSet.insert bitIndex values = .ok after ∧
      Holds after (Insert.insert bitIndex members) := by
  have hrange : 0 ≤ bitIndex / 64 ∧ bitIndex / 64 ≤ maxBitIndex / 64 := by
    rw [maxBitIndex] at hhigh ⊢
    omega
  have hbits : ∀ bits, bits = wordAt (chunksOf values) (bitIndex / 64) →
      ∀ other, other ∈ Insert.insert bitIndex members ↔
        if bitIndex / 64 = other / 64 then
          testBit (setBit bits (bitIndex % 64).toNat) (other % 64).toNat = true
        else other ∈ members := by
    rintro _ rfl other
    rw [Finset.mem_insert, index_eq_iff]
    split
    · rename_i hword
      rw [testBit, setBit, BitVec.getLsbD_or, getLsbD_bit (offset_lt _), h.mem_iff, bitAt, testBit,
        hword, Bool.or_eq_true, decide_eq_true_iff, and_iff_right rfl, or_comm]
    · rename_i hword
      rw [or_iff_right fun heq => hword heq.1]
  have hset : ∀ bits : BitVec 64, chunkOf (bitIndex / 64) (setBit bits (bitIndex % 64).toNat) =
      [⟨bitIndex / 64, setBit bits (bitIndex % 64).toNat⟩] := by
    intro bits
    apply if_neg
    intro hzero
    have hbit := congrArg (fun word => BitVec.getLsbD word (bitIndex % 64).toNat) hzero
    simp [setBit, getLsbD_bit (offset_lt _)] at hbit
  have hfresh : setBit 0#64 (bitIndex % 64).toNat = bit (bitIndex % 64).toNat := BitVec.zero_or
  unfold PersistentChunkedBitSet.insert
  rw [if_neg (not_lt.mpr hlow), if_neg (not_lt.mpr hhigh)]
  dsimp only
  rcases splitAtWord_cases h.wellFormed (bitIndex / 64) with ⟨hsplit, hword, hbelow, habove⟩ |
    ⟨left, chunk, right, hsplit, hlist, hbelow, ⟨hfound, hword, habove⟩ | ⟨hlt, hword, habove⟩⟩
  · rw [hsplit]
    refine ⟨_, rfl, h.placed hrange ?_ (hbits 0#64 hword.symm)⟩
    rw [chunksOf, toList_snoc, hset, chunksOf, hbelow, habove, hfresh, append_nil]
  · rw [hsplit]
    dsimp only
    by_cases hheld : testBit chunk.bits (bitIndex % 64).toNat = true
    · rw [if_pos ⟨hfound, hheld⟩]
      refine ⟨_, rfl, ?_⟩
      rwa [Finset.insert_eq_of_mem]
      rw [h.mem_iff, bitAt]
      exact hword ▸ hheld
    · rw [if_neg fun hboth => hheld hboth.2, if_pos hfound]
      refine ⟨_, rfl, h.placed hrange ?_ (hbits chunk.bits hword.symm)⟩
      rw [chunksOf, toList_append, toList_snoc, hset, chunksOf, hbelow, habove]
  · rw [hsplit]
    dsimp only
    rw [if_neg fun hboth => ne_of_gt hlt hboth.1, if_neg (ne_of_gt hlt)]
    refine ⟨_, rfl, h.placed hrange ?_ (hbits 0#64 hword.symm)⟩
    rw [chunksOf, toList_append, toList_snoc, toList_cons, hset, chunksOf, hbelow, habove, hfresh]

theorem delete_holds (bitIndex : Int) :
    Holds (delete bitIndex values) (members.erase bitIndex) := by
  unfold delete
  split
  · rename_i hout
    rwa [Finset.erase_eq_of_notMem]
    intro hmem
    have hrange := h.range hmem
    omega
  · rename_i hin
    have hrange : 0 ≤ bitIndex / 64 ∧ bitIndex / 64 ≤ maxBitIndex / 64 := by
      rw [maxBitIndex] at hin ⊢
      omega
    have hbits : ∀ other, other ∈ members.erase bitIndex ↔
        if bitIndex / 64 = other / 64 then
          testBit (clearBit (wordAt (chunksOf values) (bitIndex / 64)) (bitIndex % 64).toNat)
            (other % 64).toNat = true
        else other ∈ members := by
      intro other
      rw [Finset.mem_erase, Ne, index_eq_iff]
      split
      · rename_i hword
        rw [testBit, clearBit, BitVec.getLsbD_and, BitVec.getLsbD_not, getLsbD_bit (offset_lt _),
          h.mem_iff, bitAt, testBit, hword, Bool.and_eq_true, decide_eq_true (offset_lt _),
          Bool.true_and, Bool.not_eq_true', decide_eq_false_iff_not, and_comm,
          and_iff_right rfl]
      · rename_i hword
        exact and_iff_right fun heq => hword heq.1
    have hmissing :
        testBit (wordAt (chunksOf values) (bitIndex / 64)) (bitIndex % 64).toNat = false →
        members.erase bitIndex = members := by
      intro hclear
      apply Finset.erase_eq_of_notMem
      rw [h.mem_iff, bitAt, hclear]
      exact Bool.false_ne_true
    dsimp only
    rcases splitAtWord_cases h.wellFormed (bitIndex / 64) with ⟨hsplit, hword, -, -⟩ |
      ⟨left, chunk, right, hsplit, hlist, hbelow, ⟨hfound, hword, habove⟩ | ⟨hlt, hword, -⟩⟩
    · rw [hsplit]
      dsimp only
      rwa [hmissing (by rw [chunksOf, hword, testBit, BitVec.getLsbD_zero])]
    · rw [hsplit]
      dsimp only
      have hchunk : wordAt (chunksOf values) (bitIndex / 64) = chunk.bits := hword
      rw [hchunk] at hbits hmissing
      by_cases hheld : testBit chunk.bits (bitIndex % 64).toNat = true
      · rw [if_pos ⟨hfound, hheld⟩]
        apply h.placed hrange _ hbits
        rw [chunkOf]
        split
        · rw [chunksOf, toList_append, chunksOf, hbelow, habove, append_nil]
        · rw [chunksOf, toList_append, toList_snoc, chunksOf, hbelow, habove]
      · rw [if_neg fun hboth => hheld hboth.2]
        rwa [hmissing (Bool.not_eq_true _ ▸ hheld)]
    · rw [hsplit]
      dsimp only
      rw [if_neg fun hboth => ne_of_gt hlt hboth.1]
      rwa [hmissing (by rw [chunksOf, hword, testBit, BitVec.getLsbD_zero])]

end Edits

end Durable7.FingerTree.PersistentChunkedBitSet
