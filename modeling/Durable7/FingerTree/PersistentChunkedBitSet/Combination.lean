import Durable7.FingerTree.PersistentChunkedBitSet.Operations

/-!
# Combining chunked bit sets

A merge of two sorted lists of chunks applies the operation to the words of both, an
absent word being empty.
-/

namespace Durable7.FingerTree.PersistentChunkedBitSet

open Foundation List BitVec Finset Bool

/-- What an operation makes of a word that one side lacks. -/
structure Keeps (operation : BitVec 64 → BitVec 64 → BitVec 64)
    (keepLeftOnly keepRightOnly : Bool) : Prop where
  left : ∀ bits, operation bits 0#64 = if keepLeftOnly then bits else 0#64
  right : ∀ bits, operation 0#64 bits = if keepRightOnly then bits else 0#64

theorem beyond {chunk : BitChunk} {chunks : List BitChunk} (h : Increasing (chunk :: chunks))
    {wordIndex : Int} (hlt : wordIndex < chunk.wordIndex) :
    ∀ other ∈ chunk :: chunks, wordIndex < other.wordIndex := by
  intro other hother
  rcases mem_cons.mp hother with rfl | hother
  · exact hlt
  · exact Int.lt_trans hlt ((increasing_cons.mp h).1 other hother)

/-- A merged chunk stands at a place of one of the sides. -/
def Origin (left right : List BitChunk) (chunk : BitChunk) : Prop :=
  chunk ∈ left ∨ chunk ∈ right ∨
    (chunk.bits ≠ 0#64 ∧ ∃ origin ∈ left, origin.wordIndex = chunk.wordIndex)

namespace Origin

variable {left right : List BitChunk} {chunk : BitChunk}

section

variable (h : Origin left right chunk)
include h

theorem cons_left (first : BitChunk) : Origin (first :: left) right chunk := by
  rcases h with hleft | hright | ⟨hset, origin, horigin, heq⟩
  · exact .inl (mem_cons_of_mem _ hleft)
  · exact .inr (.inl hright)
  · exact .inr (.inr ⟨hset, origin, mem_cons_of_mem _ horigin, heq⟩)

theorem cons_right (first : BitChunk) : Origin left (first :: right) chunk := by
  rcases h with hleft | hright | hboth
  · exact .inl hleft
  · exact .inr (.inl (mem_cons_of_mem _ hright))
  · exact .inr (.inr hboth)

theorem place (holds : Int → Prop) (hleft : ∀ other ∈ left, holds other.wordIndex)
    (hright : ∀ other ∈ right, holds other.wordIndex) : holds chunk.wordIndex := by
  rcases h with hmem | hmem | ⟨-, origin, horigin, heq⟩
  · exact hleft chunk hmem
  · exact hright chunk hmem
  · exact heq ▸ hleft origin horigin

theorem nonzero (hleft : ∀ other ∈ left, other.bits ≠ 0#64)
    (hright : ∀ other ∈ right, other.bits ≠ 0#64) : chunk.bits ≠ 0#64 := by
  rcases h with hmem | hmem | ⟨hset, -⟩
  · exact hleft chunk hmem
  · exact hright chunk hmem
  · exact hset

end

end Origin

section Merge

variable {operation : BitVec 64 → BitVec 64 → BitVec 64} {keepLeftOnly keepRightOnly : Bool}

theorem Keeps.zero (h : Keeps operation keepLeftOnly keepRightOnly) :
    operation 0#64 0#64 = 0#64 := by
  rw [h.left, ite_self]

variable {left right : List BitChunk}

theorem wordAt_merge (h : Keeps operation keepLeftOnly keepRightOnly)
    (hleft : Increasing left) (hright : Increasing right) (wordIndex : Int) :
    wordAt (merge operation keepLeftOnly keepRightOnly left right) wordIndex =
      operation (wordAt left wordIndex) (wordAt right wordIndex) := by
  induction left, right using merge.induct operation keepLeftOnly keepRightOnly with
  | case1 remaining hkeep => rw [merge, wordAt_nil, h.right, if_pos hkeep, if_pos hkeep]
  | case2 remaining hdrop => rw [merge, wordAt_nil, h.right, if_neg hdrop, if_neg hdrop, wordAt_nil]
  | case3 remaining hne hkeep =>
      cases remaining with
      | nil => exact absurd rfl hne
      | cons chunk rest =>
          rw [merge, wordAt_nil, h.left, if_pos hkeep, if_pos hkeep]
          exact hne
  | case4 remaining hne hdrop =>
      cases remaining with
      | nil => exact absurd rfl hne
      | cons chunk rest =>
          rw [merge, wordAt_nil, h.left, if_neg hdrop, if_neg hdrop, wordAt_nil]
          exact hne
  | case5 leftChunk leftRest rightChunk rightRest hlt hkeep ih =>
      obtain ⟨-, hrest⟩ := increasing_cons.mp hleft
      rw [merge, if_pos hlt, if_pos hkeep, wordAt_cons, ih hrest hright, wordAt_cons leftChunk]
      split
      · rename_i heq
        rw [wordAt_before (beyond hright (heq ▸ hlt)), h.left, if_pos hkeep]
      · rfl
  | case6 leftChunk leftRest rightChunk rightRest hlt hdrop ih =>
      obtain ⟨-, hrest⟩ := increasing_cons.mp hleft
      rw [merge, if_pos hlt, if_neg hdrop, ih hrest hright, wordAt_cons leftChunk]
      split
      · rename_i heq
        rw [wordAt_before (beyond hright (heq ▸ hlt)), h.left, h.left, if_neg hdrop, if_neg hdrop]
      · rfl
  | case7 leftChunk leftRest rightChunk rightRest hge hlt hkeep ih =>
      obtain ⟨-, hrest⟩ := increasing_cons.mp hright
      rw [merge, if_neg hge, if_pos hlt, if_pos hkeep, wordAt_cons, ih hleft hrest,
        wordAt_cons rightChunk]
      split
      · rename_i heq
        rw [wordAt_before (beyond hleft (heq ▸ hlt)), h.right, if_pos hkeep]
      · rfl
  | case8 leftChunk leftRest rightChunk rightRest hge hlt hdrop ih =>
      obtain ⟨-, hrest⟩ := increasing_cons.mp hright
      rw [merge, if_neg hge, if_pos hlt, if_neg hdrop, ih hleft hrest, wordAt_cons rightChunk]
      split
      · rename_i heq
        rw [wordAt_before (beyond hleft (heq ▸ hlt)), h.right, h.right, if_neg hdrop, if_neg hdrop]
      · rfl
  | case9 leftChunk leftRest rightChunk rightRest hge hle combined hzero ih =>
      obtain ⟨hfirst, hleftRest⟩ := increasing_cons.mp hleft
      obtain ⟨hnext, hrightRest⟩ := increasing_cons.mp hright
      have hsame : rightChunk.wordIndex = leftChunk.wordIndex := by omega
      rw [merge, if_neg hge, if_neg hle, if_pos hzero, ih hleftRest hrightRest,
        wordAt_cons leftChunk, wordAt_cons rightChunk, hsame]
      split
      · rename_i heq
        rw [wordAt_before fun chunk hchunk => heq ▸ hfirst chunk hchunk,
          wordAt_before fun chunk hchunk => heq ▸ hsame ▸ hnext chunk hchunk, h.zero]
        exact hzero.symm
      · rfl
  | case10 leftChunk leftRest rightChunk rightRest hge hle combined hset ih =>
      obtain ⟨-, hleftRest⟩ := increasing_cons.mp hleft
      obtain ⟨-, hrightRest⟩ := increasing_cons.mp hright
      have hsame : rightChunk.wordIndex = leftChunk.wordIndex := by omega
      rw [merge, if_neg hge, if_neg hle, if_neg hset, wordAt_cons, ih hleftRest hrightRest,
        wordAt_cons leftChunk, wordAt_cons rightChunk, hsame]
      split
      · rfl
      · rfl

theorem merge_origin {chunk : BitChunk}
    (hchunk : chunk ∈ merge operation keepLeftOnly keepRightOnly left right) :
    Origin left right chunk := by
  induction left, right using merge.induct operation keepLeftOnly keepRightOnly with
  | case1 remaining hkeep =>
      rw [merge, if_pos hkeep] at hchunk
      exact .inr (.inl hchunk)
  | case2 remaining hdrop =>
      rw [merge, if_neg hdrop] at hchunk
      cases hchunk
  | case3 remaining hne hkeep =>
      rw [merge, if_pos hkeep] at hchunk
      · exact .inl hchunk
      · exact hne
  | case4 remaining hne hdrop =>
      rw [merge, if_neg hdrop] at hchunk
      · cases hchunk
      · exact hne
  | case5 leftChunk leftRest rightChunk rightRest hlt hkeep ih =>
      rw [merge, if_pos hlt, if_pos hkeep] at hchunk
      rcases mem_cons.mp hchunk with rfl | hchunk
      · exact .inl mem_cons_self
      · exact (ih hchunk).cons_left _
  | case6 leftChunk leftRest rightChunk rightRest hlt hdrop ih =>
      rw [merge, if_pos hlt, if_neg hdrop] at hchunk
      exact (ih hchunk).cons_left _
  | case7 leftChunk leftRest rightChunk rightRest hge hlt hkeep ih =>
      rw [merge, if_neg hge, if_pos hlt, if_pos hkeep] at hchunk
      rcases mem_cons.mp hchunk with rfl | hchunk
      · exact .inr (.inl mem_cons_self)
      · exact (ih hchunk).cons_right _
  | case8 leftChunk leftRest rightChunk rightRest hge hlt hdrop ih =>
      rw [merge, if_neg hge, if_pos hlt, if_neg hdrop] at hchunk
      exact (ih hchunk).cons_right _
  | case9 leftChunk leftRest rightChunk rightRest hge hle combined hzero ih =>
      rw [merge, if_neg hge, if_neg hle, if_pos hzero] at hchunk
      exact ((ih hchunk).cons_right _).cons_left _
  | case10 leftChunk leftRest rightChunk rightRest hge hle combined hset ih =>
      rw [merge, if_neg hge, if_neg hle, if_neg hset] at hchunk
      rcases mem_cons.mp hchunk with rfl | hchunk
      · exact .inr (.inr ⟨hset, leftChunk, mem_cons_self, rfl⟩)
      · exact ((ih hchunk).cons_right _).cons_left _

theorem increasing_merge (hleft : Increasing left) (hright : Increasing right) :
    Increasing (merge operation keepLeftOnly keepRightOnly left right) := by
  induction left, right using merge.induct operation keepLeftOnly keepRightOnly with
  | case1 remaining hkeep => rwa [merge, if_pos hkeep]
  | case2 remaining hdrop =>
      rw [merge, if_neg hdrop]
      exact .nil
  | case3 remaining hne hkeep =>
      rwa [merge, if_pos hkeep]
      exact hne
  | case4 remaining hne hdrop =>
      rw [merge, if_neg hdrop]
      · exact .nil
      · exact hne
  | case5 leftChunk leftRest rightChunk rightRest hlt hkeep ih =>
      obtain ⟨hfirst, hrest⟩ := increasing_cons.mp hleft
      rw [merge, if_pos hlt, if_pos hkeep]
      refine increasing_cons.mpr ⟨fun other hother => ?_, ih hrest hright⟩
      exact (merge_origin hother).place _ hfirst (beyond hright hlt)
  | case6 leftChunk leftRest rightChunk rightRest hlt hdrop ih =>
      rw [merge, if_pos hlt, if_neg hdrop]
      exact ih (increasing_cons.mp hleft).2 hright
  | case7 leftChunk leftRest rightChunk rightRest hge hlt hkeep ih =>
      obtain ⟨hnext, hrest⟩ := increasing_cons.mp hright
      rw [merge, if_neg hge, if_pos hlt, if_pos hkeep]
      refine increasing_cons.mpr ⟨fun other hother => ?_, ih hleft hrest⟩
      exact (merge_origin hother).place _ (beyond hleft hlt) hnext
  | case8 leftChunk leftRest rightChunk rightRest hge hlt hdrop ih =>
      rw [merge, if_neg hge, if_pos hlt, if_neg hdrop]
      exact ih hleft (increasing_cons.mp hright).2
  | case9 leftChunk leftRest rightChunk rightRest hge hle combined hzero ih =>
      rw [merge, if_neg hge, if_neg hle, if_pos hzero]
      exact ih (increasing_cons.mp hleft).2 (increasing_cons.mp hright).2
  | case10 leftChunk leftRest rightChunk rightRest hge hle combined hset ih =>
      obtain ⟨hfirst, hleftRest⟩ := increasing_cons.mp hleft
      obtain ⟨hnext, hrightRest⟩ := increasing_cons.mp hright
      have hsame : rightChunk.wordIndex = leftChunk.wordIndex := by omega
      rw [merge, if_neg hge, if_neg hle, if_neg hset]
      refine increasing_cons.mpr ⟨fun other hother => ?_, ih hleftRest hrightRest⟩
      exact (merge_origin hother).place _ hfirst (hsame ▸ hnext)

theorem wellFormed_merge (hleft : WellFormed left) (hright : WellFormed right) :
    WellFormed (merge operation keepLeftOnly keepRightOnly left right) := by
  refine ⟨increasing_merge hleft.increasing hright.increasing, fun chunk hchunk => ?_,
    fun chunk hchunk => ?_⟩
  · exact (merge_origin hchunk).nonzero hleft.nonzero hright.nonzero
  · exact (merge_origin hchunk).place (fun index => 0 ≤ index ∧ index ≤ maxBitIndex / 64)
      hleft.inRange hright.inRange

theorem chunksOf_combineWords (left right : PersistentChunkedBitSet) :
    chunksOf (combineWords operation keepLeftOnly keepRightOnly left right) =
      merge operation keepLeftOnly keepRightOnly (chunksOf left) (chunksOf right) := by
  unfold combineWords
  dsimp only
  split
  · rename_i hsame
    exact hsame.symm
  · exact Measured.ValidTree.toList_fromList _

theorem combineWords_holds (h : Keeps operation keepLeftOnly keepRightOnly)
    {left right : PersistentChunkedBitSet} {leftMembers rightMembers members : Finset Int}
    (hleft : Holds left leftMembers) (hright : Holds right rightMembers)
    (hmem : ∀ bitIndex, bitIndex ∈ members ↔
      testBit (operation (wordAt (chunksOf left) (bitIndex / 64))
        (wordAt (chunksOf right) (bitIndex / 64))) (bitIndex % 64).toNat = true) :
    Holds (combineWords operation keepLeftOnly keepRightOnly left right) members := by
  refine ⟨?_, fun bitIndex => ?_⟩
  · rw [chunksOf_combineWords]
    exact wellFormed_merge hleft.wellFormed hright.wellFormed
  · rw [hmem, bitAt, chunksOf_combineWords,
      wordAt_merge h hleft.wellFormed.increasing hright.wellFormed.increasing]

end Merge

section Algebra

variable {left right : PersistentChunkedBitSet} {leftMembers rightMembers : Finset Int}
  (hleft : Holds left leftMembers) (hright : Holds right rightMembers)

include hleft hright

theorem union_holds : Holds (union left right) (leftMembers ∪ rightMembers) := by
  have hkeeps : Keeps (· ||| ·) true true := ⟨fun _ => or_zero, fun _ => zero_or⟩
  refine combineWords_holds hkeeps hleft hright ?_
  intro bitIndex
  rw [mem_union, hleft.mem_iff, hright.mem_iff, testBit, getLsbD_or, or_eq_true]
  rfl

theorem intersection_holds : Holds (intersection left right) (leftMembers ∩ rightMembers) := by
  refine combineWords_holds ⟨fun _ => and_zero, fun _ => zero_and⟩ hleft hright ?_
  intro bitIndex
  rw [mem_inter, hleft.mem_iff, hright.mem_iff, testBit, getLsbD_and, and_eq_true]
  rfl

theorem difference_holds : Holds (difference left right) (leftMembers \ rightMembers) := by
  refine combineWords_holds ⟨fun bits => ?_, fun _ => zero_and⟩ hleft hright ?_
  · rw [zero_xor]
    exact and_allOnes
  · intro bitIndex
    rw [mem_sdiff, hleft.mem_iff, hright.mem_iff, testBit, getLsbD_and,
      getLsbD_xor, getLsbD_allOnes, decide_eq_true (offset_lt _), Bool.xor_true,
      and_eq_true, not_eq_true', ← not_eq_true]
    rfl

theorem symmetricDifference_holds :
    Holds (symmetricDifference left right) (symmDiff leftMembers rightMembers) := by
  have hkeeps : Keeps (· ^^^ ·) true true := ⟨fun _ => xor_zero, fun _ => zero_xor⟩
  refine combineWords_holds hkeeps hleft hright ?_
  intro bitIndex
  rw [mem_symmDiff, hleft.mem_iff, hright.mem_iff, testBit, getLsbD_xor, bitAt, bitAt,
    testBit, testBit]
  cases (wordAt (chunksOf left) (bitIndex / 64)).getLsbD (bitIndex % 64).toNat <;>
    cases (wordAt (chunksOf right) (bitIndex / 64)).getLsbD (bitIndex % 64).toNat <;> simp

end Algebra

end Durable7.FingerTree.PersistentChunkedBitSet
