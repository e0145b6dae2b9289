import Durable7.Hamt.MerklePersistence.Expansion

/-!
# What the verifier establishes

One inversion lemma for each part of the verifier: the query it reads, the maps
it decodes, one step of each walk, and the final comparison.  They are
equivalences, so that soundness reads them from left to right and completeness
from right to left.
-/

namespace Durable7.Hamt

open Foundation List MerkleProofStep Except

variable {k v : Type} {policy : MerkleSearchTreePolicy k v}
  {budget : MerkleVerificationBudget} {proof : MerkleProof}

/-! ## Queries -/

theorem proofTake_eq_ok {piece : ByteString} {offset count next : Nat} :
    proofTake proof offset count = .ok (piece, next) ↔
      ReadsAt proof.proofQuery offset piece next ∧ piece.length = count := by
  rw [← @takeBytes_eq_ok proof.proofQuery piece offset count next none, proofTake, takeBytes]
  split <;> simp

theorem readProofField_eq_ok {piece : ByteString} {offset next : Nat} :
    readProofField proof offset = .ok (piece, next) ↔
      ReadsAt proof.proofQuery offset (queryField piece) next ∧ piece.length ≤ maxInt32 := by
  rw [queryField, ← @readLengthPrefixed_eq_ok next offset proof.proofRootDigest
    proof.proofQuery piece]
  simp only [readProofField, readLengthPrefixed, readInt32, bind_eq_ok, Prod.exists, rejectIf_eq_ok,
    proofTake_eq_ok, takeBytes_eq_ok, exists_const, ok.injEq, Prod.mk.injEq]
  constructor
  · rintro ⟨bytes, offset', hbytes, hnonneg, hpiece⟩
    exact ⟨_, offset', ⟨bytes, offset', hbytes, rfl, rfl⟩, hnonneg, hpiece⟩
  · rintro ⟨_, _, ⟨bytes, offset', hbytes, rfl, rfl⟩, hnonneg, hpiece⟩
    exact ⟨bytes, offset', hbytes, hnonneg, hpiece⟩

theorem readProofHeader_eq_ok {tag : UInt8} {next : Nat} :
    readProofHeader proof tag = .ok next ↔
      ReadsAt proof.proofQuery 0 (proofMagic ++ [tag]) next := by
  simp only [readProofHeader, bind_eq_ok, Prod.exists, rejectIf_eq_ok, proofTake_eq_ok, ne_eq,
    not_not, exists_const]
  constructor
  · rintro ⟨magic, offset1, ⟨hmagic, -⟩, rfl, actual, offset2, ⟨hactual, hlength⟩, htag, ⟨⟩⟩
    obtain ⟨byte, rfl⟩ := length_eq_one_iff.mp hlength
    rw [byteAt, getD_cons_zero] at htag
    exact htag ▸ hmagic.append hactual
  · intro h
    obtain ⟨hmagic, htag⟩ := h.split
    exact ⟨proofMagic, _, ⟨hmagic, rfl⟩, rfl, [tag], _, ⟨htag, rfl⟩, rfl, rfl⟩

/-- The bytes decode to the key, and the key encodes to the bytes. -/
def CanonicalKey (policy : MerkleSearchTreePolicy k v) (bytes : ByteString) (key : k) : Prop :=
  policy.merkleKeyCodec.decodeMerkleValue bytes = .ok key ∧
    policy.merkleKeyCodec.encodeMerkleValue key = .ok bytes

theorem decodeCanonicalQueryKey_eq_ok {bytes : ByteString} {key : k} :
    decodeCanonicalQueryKey proof policy bytes = .ok key ↔
      CanonicalKey policy bytes key := by
  simp only [decodeCanonicalQueryKey, proofCodecDecode, proofCodecEncode, bind_eq_ok,
    mapError_eq_ok, rejectIf_eq_ok, ne_eq, not_not, exists_const, ok.injEq]
  constructor
  · rintro ⟨decoded, hdecode, canonical, hencode, rfl, rfl⟩
    exact ⟨hdecode, hencode⟩
  · rintro ⟨hdecode, hencode⟩
    exact ⟨key, hdecode, bytes, hencode, rfl, rfl⟩

/-- The value a query of this kind may claim. -/
def ClaimedValue (policy : MerkleSearchTreePolicy k v) (kind : MerkleProofKind) :
    Option ByteString → Prop
  | none => kind ≠ .MembershipProof
  | some bytes => kind = .MembershipProof ∧ bytes.length ≤ maxInt32 ∧
      ∃ value, policy.merkleValueCodec.decodeMerkleValue bytes = .ok value ∧
        policy.merkleValueCodec.encodeMerkleValue value = .ok bytes

theorem readClaimedValue_eq_ok {claimed : Option ByteString} {offset next : Nat}
    (hoffset : offset ≤ proof.proofQuery.length) :
    readClaimedValue proof policy offset = .ok (claimed, next) ↔
      ClaimedValue policy proof.proofKind claimed ∧
        ReadsAt proof.proofQuery offset (claimed.elim [] queryField) next := by
  unfold readClaimedValue
  split
  · rename_i hkind
    simp only [proofCodecDecode, proofCodecEncode, bind_eq_ok, Prod.exists, mapError_eq_ok,
      rejectIf_eq_ok, readProofField_eq_ok, ne_eq, not_not, exists_const, ok.injEq,
      Prod.mk.injEq]
    constructor
    · rintro ⟨bytes, next', ⟨hreads, hle⟩, value, hdecode, canonical, hencode, rfl, rfl, rfl⟩
      exact ⟨⟨hkind, hle, value, hdecode, hencode⟩, hreads⟩
    · rintro ⟨hclaimed, hreads⟩
      cases claimed with
      | none => exact absurd hkind hclaimed
      | some bytes =>
          obtain ⟨-, hle, value, hdecode, hencode⟩ := hclaimed
          exact ⟨bytes, next, ⟨hreads, hle⟩, value, hdecode, bytes, hencode, rfl, rfl, rfl⟩
  · rename_i hkind
    constructor
    · intro h
      cases h
      exact ⟨hkind, ReadsAt.nil hoffset⟩
    · rintro ⟨hclaimed, hreads⟩
      cases claimed with
      | none =>
          obtain ⟨-, rfl⟩ := (ReadsAt.nil hoffset).unique hreads rfl
          rfl
      | some bytes => exact absurd hclaimed.1 hkind

/-- The bytes of a point query. -/
def pointQuery (kind : MerkleProofKind) (keyBytes : ByteString)
    (claimed : Option ByteString) : ByteString :=
  proofMagic ++ [kind.queryTag] ++ queryField keyBytes ++ claimed.elim [] queryField

theorem decodePointQuery_eq_ok {key : k} {claimed : Option ByteString} :
    decodePointQuery proof policy = .ok (key, claimed) ↔
      proof.proofKind ≠ .RangeProof ∧ ∃ keyBytes, CanonicalKey policy keyBytes key ∧
        keyBytes.length ≤ maxInt32 ∧ ClaimedValue policy proof.proofKind claimed ∧
        proof.proofQuery = pointQuery proof.proofKind keyBytes claimed := by
  simp only [decodePointQuery, bind_eq_ok, Prod.exists, rejectIf_eq_ok, readProofHeader_eq_ok,
    readProofField_eq_ok, decodeCanonicalQueryKey_eq_ok, ne_eq, not_not, exists_const,
    ok.injEq, Prod.mk.injEq]
  constructor
  · rintro ⟨hkind, offset, hheader, keyBytes, offset1, ⟨hkeyReads, hkeyLe⟩, valueBytes, offset2,
      hvalue, rfl, key', hcanonical, rfl, rfl⟩
    obtain ⟨hclaimed, hvalueReads⟩ := (readClaimedValue_eq_ok hkeyReads.next_le).mp hvalue
    exact ⟨hkind, keyBytes, hcanonical, hkeyLe, hclaimed,
      ((hheader.append hkeyReads).append hvalueReads).eq_of_whole⟩
  · rintro ⟨hkind, keyBytes, hcanonical, hkeyLe, hclaimed, hquery⟩
    obtain ⟨hfront, hvalue⟩ := (ReadsAt.whole hquery).split
    obtain ⟨hheader, hkey⟩ := hfront.split
    exact ⟨hkind, _, hheader, keyBytes, _, ⟨hkey, hkeyLe⟩, claimed, _,
      (readClaimedValue_eq_ok hvalue.offset_le).mpr ⟨hclaimed, hvalue⟩, rfl, key, hcanonical,
      rfl, rfl⟩

/-- The bytes of a range query. -/
def rangeQuery (minimumBytes maximumBytes : ByteString) : ByteString :=
  proofMagic ++ [2] ++ queryField minimumBytes ++ queryField maximumBytes

theorem decodeRangeQuery_eq_ok {minimumKey maximumKey : k} :
    decodeRangeQuery proof policy = .ok (minimumKey, maximumKey) ↔
      proof.proofKind = .RangeProof ∧
        policy.compareMerkleKeys minimumKey maximumKey ≠ .gt ∧
        ∃ minimumBytes maximumBytes, CanonicalKey policy minimumBytes minimumKey ∧
          CanonicalKey policy maximumBytes maximumKey ∧
          minimumBytes.length ≤ maxInt32 ∧ maximumBytes.length ≤ maxInt32 ∧
          proof.proofQuery = rangeQuery minimumBytes maximumBytes := by
  simp only [decodeRangeQuery, bind_eq_ok, Prod.exists, rejectIf_eq_ok, readProofHeader_eq_ok,
    readProofField_eq_ok, decodeCanonicalQueryKey_eq_ok, ne_eq, not_not, exists_const,
    ok.injEq, Prod.mk.injEq]
  constructor
  · rintro ⟨hkind, offset, hheader, minimumBytes, offset1, ⟨hminimumReads, hminimumLe⟩,
      maximumBytes, offset2, ⟨hmaximumReads, hmaximumLe⟩, rfl, minimumKey', hminimumKey,
      maximumKey', hmaximumKey, horder, rfl, rfl⟩
    exact ⟨hkind, horder, minimumBytes, maximumBytes, hminimumKey, hmaximumKey, hminimumLe,
      hmaximumLe, ((hheader.append hminimumReads).append hmaximumReads).eq_of_whole⟩
  · rintro ⟨hkind, horder, minimumBytes, maximumBytes, hminimumKey, hmaximumKey,
      hminimumLe, hmaximumLe, hquery⟩
    obtain ⟨hfront, hmaximum⟩ := (ReadsAt.whole hquery).split
    obtain ⟨hheader, hminimum⟩ := hfront.split
    exact ⟨hkind, _, hheader, minimumBytes, _, ⟨hminimum, hminimumLe⟩, maximumBytes, _,
      ⟨hmaximum, hmaximumLe⟩, rfl, minimumKey, hminimumKey, maximumKey, hmaximumKey, horder, rfl,
      rfl⟩

/-! ## Decoded steps -/

namespace MerkleProofStep

def digest (step : MerkleProofStep) : MerkleDigest := step.proofStepBlock.merkleBlockDigest

end MerkleProofStep

theorem lookup_insert_iff {α : Type} {map : DigestMap α}
    {key : α → MerkleDigest} {items : List α} {item : α}
    (h : ∀ digest other, map.lookup digest = some other ↔ other ∈ items ∧ key other = digest)
    (hfresh : key item ∉ items.map key) (digest : MerkleDigest) (other : α) :
    (map.insert (key item) item).lookup digest = some other ↔
      other ∈ items ++ [item] ∧ key other = digest := by
  rw [mem_append, mem_singleton, or_and_right, ← h]
  by_cases heq : digest = key item
  · subst heq
    have hnone : map.lookup (key item) ≠ some other := fun hsome =>
      hfresh (mem_map.mpr ⟨other, (h _ _).mp hsome⟩)
    rw [Finmap.lookup_insert]
    constructor
    · rintro ⟨⟩
      exact .inr ⟨rfl, rfl⟩
    · rintro (hsome | ⟨rfl, -⟩)
      · exact absurd hsome hnone
      · rfl
  · rw [Finmap.lookup_insert_of_ne _ heq, or_iff_left]
    rintro ⟨rfl, hother⟩
    exact heq hother.symm

/-- The maps hold the steps and their well-formed decodings, by distinct digests. -/
structure DecodedSteps (policy : MerkleSearchTreePolicy k v)
    (steps : List MerkleProofStep) (blocks : List (DecodedBlock k v))
    (maps : ProofMaps k v) : Prop where
  sources : blocks.map DecodedBlock.decodedBlockSource = steps.map proofStepBlock
  wellFormed : ∀ block ∈ blocks, WellFormedBlock policy block
  nodup : (steps.map digest).Nodup
  block_iff : ∀ digest block, maps.1.lookup digest = some block ↔
    block ∈ blocks ∧ block.decodedBlockSource.merkleBlockDigest = digest
  step_iff : ∀ digest step, maps.2.lookup digest = some step ↔ step ∈ steps ∧ step.digest = digest

namespace DecodedSteps

variable {steps : List MerkleProofStep} {blocks : List (DecodedBlock k v)} {maps : ProofMaps k v}

theorem nil (policy : MerkleSearchTreePolicy k v) : DecodedSteps policy [] [] (∅, ∅) := by
  constructor <;> simp

section

variable (h : DecodedSteps policy steps blocks maps)
include h

theorem digests_eq :
    blocks.map (fun block => block.decodedBlockSource.merkleBlockDigest) =
      steps.map digest := by
  have hdigests := congrArg (List.map MerkleBlock.merkleBlockDigest) h.sources
  rw [map_map, map_map] at hdigests
  exact hdigests

theorem mem_blocks {digest : MerkleDigest} :
    digest ∈ maps.1 ↔ digest ∈ steps.map MerkleProofStep.digest := by
  rw [← h.digests_eq, Finmap.mem_iff, mem_map]
  simp only [h.block_iff]

theorem mem_steps {digest : MerkleDigest} :
    digest ∈ maps.2 ↔ digest ∈ steps.map MerkleProofStep.digest := by
  rw [Finmap.mem_iff, mem_map]
  simp only [h.step_iff]

theorem snoc {step : MerkleProofStep} {block : DecodedBlock k v}
    (hsource : block.decodedBlockSource = step.proofStepBlock)
    (hblock : WellFormedBlock policy block) (hfresh : step.digest ∉ steps.map digest) :
    DecodedSteps policy (steps ++ [step]) (blocks ++ [block])
      (maps.1.insert step.digest block, maps.2.insert step.digest step) where
  sources := by simp [h.sources, hsource]
  wellFormed other hother := by
    rcases mem_append.mp hother with hother | hother
    · exact h.wellFormed other hother
    · rw [mem_singleton.mp hother]
      exact hblock
  nodup := by
    rw [map_append, nodup_append]
    refine ⟨h.nodup, by simp, ?_⟩
    intro digest hdigest other hother heq
    rw [map_singleton, mem_singleton] at hother
    exact hfresh (hother ▸ heq ▸ hdigest)
  block_iff := by
    have hdigest : block.decodedBlockSource.merkleBlockDigest = step.digest := by
      rw [hsource]
      rfl
    rw [← hdigest]
    refine lookup_insert_iff h.block_iff ?_
    rwa [h.digests_eq, hdigest]
  step_iff := lookup_insert_iff h.step_iff hfresh

end

end DecodedSteps

theorem decodeProofSteps_spec {rest : List MerkleProofStep} {maps : ProofMaps k v}
    {context final : VerificationContext budget} :
    ∀ {steps : List MerkleProofStep} {blocks : List (DecodedBlock k v)}
      {start : ProofMaps k v}, DecodedSteps policy steps blocks start →
      decodeProofSteps policy rest start.1 start.2 context = (.ok maps, final) →
      ∃ more, DecodedSteps policy (steps ++ rest) (blocks ++ more) maps := by
  induction rest generalizing context with
  | nil =>
      intro steps blocks start hstart h
      cases h
      exact ⟨[], by simpa using hstart⟩
  | cons step rest ih =>
      intro steps blocks start hstart h
      rw [decodeProofSteps] at h
      split at h
      · cases h
      split at h
      · cases h
      rename_i parsed nextContext hdecode
      split at h
      · cases h
      rename_i hfresh
      split at h
      · cases h
      obtain ⟨hsource, hblock, -⟩ := decodeBlock_eq_ok.mp hdecode
      rw [not_or] at hfresh
      obtain ⟨more, hmore⟩ := ih
        (hstart.snoc hsource hblock fun hmem => hfresh.1 (hstart.mem_blocks.mpr hmem)) h
      exact ⟨parsed :: more, by simpa using hmore⟩

theorem requireExpandedExactly_eq_ok {step : MerkleProofStep} {expected : List Nat} {done : Unit} :
    requireExpandedExactly step expected = .ok done ↔
      step.proofStepExpandedChildIndexes = expected.map Int.ofNat := by
  rw [requireExpandedExactly, rejectIf_eq_ok, not_not]

section Point

variable {kind : MerkleProofKind} {maps : ProofMaps k v} {key : k}
  {claimed : Option ByteString} {digest : MerkleDigest} {depth : Nat}
  {visited final : Finset MerkleDigest}

/-- How one block of a point walk may answer the query. -/
inductive PointAnswer (kind : MerkleProofKind) (policy : MerkleSearchTreePolicy k v)
    (key : k) (claimed : Option ByteString) (block : DecodedBlock k v) : Prop where
  | present {position : Nat}
      (hfind : findDecodedPosition policy block.decodedEntries key = (position, true))
      (hkind : kind = .MembershipProof)
      (hvalue : claimed = block.decodedEntries[position]?.map DecodedEntry.decodedValueBytes)
  | absent {position : Nat}
      (hfind : findDecodedPosition policy block.decodedEntries key = (position, false))
      (hempty : block.childAt policy position = policy.merkleEmptyDigest)
      (hkind : kind = .NonMembershipProof)

theorem walkPointProof_eq_ok :
    walkPointProof kind policy budget maps key claimed digest depth visited = .ok final ↔
      (0 < depth ∧ depth ≤ budget.maxDepth) ∧ digest ∉ visited ∧
      ∃ block step, maps.1.lookup digest = some block ∧
        maps.2.lookup digest = some step ∧
        ((PointAnswer kind policy key claimed block ∧
            step.proofStepExpandedChildIndexes = [] ∧
            final = Insert.insert digest visited) ∨
          ∃ position child,
            findDecodedPosition policy block.decodedEntries key = (position, false) ∧
            block.childAt policy position ≠ policy.merkleEmptyDigest ∧
            step.proofStepExpandedChildIndexes = [(position : Int)] ∧
            maps.1.lookup (block.childAt policy position) = some child ∧
            validateProofReference policy block position child = .ok () ∧
            walkPointProof kind policy budget maps key claimed
              (block.childAt policy position) (depth + 1)
              (Insert.insert digest visited) = .ok final) := by
  rw [walkPointProof]
  split
  · rename_i problem hfailed
    have hdepth : ¬(0 < depth ∧ depth ≤ budget.maxDepth) := fun hdepth => by
      rw [checkDepth_eq_ok.mpr hdepth] at hfailed
      cases hfailed
    simp [hdepth]
  rename_i hdepth
  simp only [checkDepth_eq_ok.mp hdepth, and_self, true_and, bind_eq_ok, presentOr_eq_ok,
    rejectIf_eq_ok, exists_const, exists_and_left]
  refine and_congr_right fun _ => exists_congr fun block => and_congr_right fun _ =>
    exists_congr fun step => and_congr_right fun _ => ?_
  rcases hfind : findDecodedPosition policy block.decodedEntries key with ⟨position, found⟩
  cases found with
  | true =>
      simp only [if_true, bind_eq_ok, requireExpandedExactly_eq_ok, rejectIf_eq_ok, ne_eq, not_not,
        exists_const, ok.injEq]
      constructor
      · rintro ⟨hexact, hkind, hvalue, rfl⟩
        exact .inl ⟨.present hfind hkind hvalue, hexact, rfl⟩
      · rintro (⟨⟨hfind', hkind, hvalue⟩ | ⟨hfind', -, -⟩, hexact, rfl⟩ | ⟨_, hother, -⟩)
        · cases hfind.symm.trans hfind'
          exact ⟨hexact, hkind, hvalue, rfl⟩
        · cases hfind.symm.trans hfind'
        · cases hother
  | false =>
      by_cases hempty : block.childAt policy position = policy.merkleEmptyDigest
      · simp only [Bool.false_eq_true, if_false, hempty, if_true, bind_eq_ok,
          requireExpandedExactly_eq_ok, rejectIf_eq_ok, ne_eq, not_not, exists_const,
          ok.injEq]
        constructor
        · rintro ⟨hexact, hkind, rfl⟩
          exact .inl ⟨.absent hfind hempty hkind, hexact, rfl⟩
        · rintro (⟨⟨hfind', -, -⟩ | ⟨-, -, hkind⟩, hexact, rfl⟩ | ⟨_, hother, hpresent, -⟩)
          · cases hfind.symm.trans hfind'
          · exact ⟨hexact, hkind, rfl⟩
          · cases hother
            exact absurd hempty hpresent
      · simp only [Bool.false_eq_true, if_false, hempty, bind_eq_ok, presentOr_eq_ok,
          requireExpandedExactly_eq_ok, exists_const]
        constructor
        · rintro ⟨hexact, child, hchild, ⟨⟩, hreference, hwalk⟩
          exact .inr ⟨position, rfl, hempty, hexact, child, hchild, hreference, hwalk⟩
        · rintro (⟨⟨hfind', -, -⟩ | ⟨hfind', hnone, -⟩, -, -⟩ |
            ⟨_, hother, -, hexact, child, hchild, hreference, hwalk⟩)
          · cases hfind.symm.trans hfind'
          · cases hfind.symm.trans hfind'
            exact absurd hnone hempty
          · cases hother
            exact ⟨hexact, child, hchild, ⟨⟩, hreference, hwalk⟩

end Point

section Range

variable {maps : ProofMaps k v} {minimumKey maximumKey : k} {depth : Nat}
  {visited final : Finset MerkleDigest}

theorem walkRangeProof_eq_ok {digest : MerkleDigest} :
    walkRangeProof policy budget maps minimumKey maximumKey digest depth visited = .ok final ↔
      (0 < depth ∧ depth ≤ budget.maxDepth) ∧ digest ∉ visited ∧
      ∃ block step, maps.1.lookup digest = some block ∧
        maps.2.lookup digest = some step ∧
        step.proofStepExpandedChildIndexes =
          (block.expandedIndexes policy minimumKey maximumKey).map Int.ofNat ∧
        visitRangeChildren policy budget maps minimumKey maximumKey block
          (block.expandedIndexes policy minimumKey maximumKey) (depth + 1)
          (Insert.insert digest visited) = .ok final := by
  rw [walkRangeProof]
  split
  · rename_i problem hfailed
    have hdepth : ¬(0 < depth ∧ depth ≤ budget.maxDepth) := fun hdepth => by
      rw [checkDepth_eq_ok.mpr hdepth] at hfailed
      cases hfailed
    simp [hdepth]
  · rename_i hdepth
    simp only [checkDepth_eq_ok.mp hdepth, and_self, true_and, bind_eq_ok, presentOr_eq_ok,
      rejectIf_eq_ok, requireExpandedExactly_eq_ok, exists_const, exists_and_left]

theorem visitRangeChildren_nil {parent : DecodedBlock k v} :
    visitRangeChildren policy budget maps minimumKey maximumKey parent [] depth
      visited = .ok visited := by
  rw [visitRangeChildren]

theorem visitRangeChildren_cons_eq_ok {parent : DecodedBlock k v} {index : Nat}
    {indexes : List Nat} :
    visitRangeChildren policy budget maps minimumKey maximumKey parent
        (index :: indexes) depth visited = .ok final ↔
      ∃ child middle, maps.1.lookup (parent.childAt policy index) = some child ∧
        validateProofReference policy parent index child = .ok () ∧
        walkRangeProof policy budget maps minimumKey maximumKey
          (parent.childAt policy index) depth visited = .ok middle ∧
        visitRangeChildren policy budget maps minimumKey maximumKey parent indexes
          depth middle = .ok final := by
  rw [visitRangeChildren]
  simp only [bind_eq_ok, presentOr_eq_ok, exists_and_left, Unique.exists_iff]

end Range

section Verification

variable {maps : ProofMaps k v}

theorem verifyDecodedProof_eq_ok :
    verifyDecodedProof proof policy budget maps = .ok () ↔
      (proof.proofRootDigest = policy.merkleEmptyDigest ∧ proof.proofSteps = [] ∧
        verifyEmptyProofQuery proof policy = .ok ()) ∨
      (proof.proofRootDigest ≠ policy.merkleEmptyDigest ∧ proof.proofRootDigest ∈ maps.1 ∧
        ∃ visited, verifyWalk proof policy budget maps = .ok visited ∧
          visited.card = proof.proofSteps.length) := by
  rw [verifyDecodedProof]
  by_cases hroot : proof.proofRootDigest = policy.merkleEmptyDigest
  · simp only [hroot, if_true, ne_eq, not_true_eq_false, false_and, or_false, true_and, bind_eq_ok,
      rejectIf_eq_ok, not_not, exists_const]
  · by_cases hpresent : proof.proofRootDigest ∈ maps.1 <;> simp [hroot, hpresent, bind_eq_ok]

theorem verifyDecodedProof_point (hkind : proof.proofKind ≠ .RangeProof) :
    verifyDecodedProof proof policy budget maps = .ok () ↔
      (proof.proofRootDigest = policy.merkleEmptyDigest ∧ proof.proofSteps = [] ∧
        proof.proofKind = .NonMembershipProof ∧
        ∃ answer, decodePointQuery proof policy = .ok answer) ∨
      (proof.proofRootDigest ≠ policy.merkleEmptyDigest ∧
        proof.proofRootDigest ∈ maps.1 ∧
        ∃ key claimed visited, decodePointQuery proof policy = .ok (key, claimed) ∧
          walkPointProof proof.proofKind policy budget maps key claimed
            proof.proofRootDigest 1 ∅ = .ok visited ∧
          visited.card = proof.proofSteps.length) := by
  have hempty : verifyEmptyProofQuery proof policy = .ok () ↔
      proof.proofKind = .NonMembershipProof ∧
        ∃ answer, decodePointQuery proof policy = .ok answer := by
    unfold verifyEmptyProofQuery
    cases hproof : proof.proofKind <;> simp_all [bind_eq_ok]
  have hwalk : verifyWalk proof policy budget maps = verifyPointProof proof policy budget maps := by
    unfold verifyWalk
    cases hproof : proof.proofKind <;> simp_all
  simp only [verifyDecodedProof_eq_ok, hempty, hwalk, verifyPointProof, bind_eq_ok, Prod.exists]
  grind

theorem verifyDecodedProof_range (hkind : proof.proofKind = .RangeProof) :
    verifyDecodedProof proof policy budget maps = .ok () ↔
      (proof.proofRootDigest = policy.merkleEmptyDigest ∧ proof.proofSteps = [] ∧
        ∃ bounds, decodeRangeQuery proof policy = .ok bounds) ∨
      (proof.proofRootDigest ≠ policy.merkleEmptyDigest ∧
        proof.proofRootDigest ∈ maps.1 ∧
        ∃ minimumKey maximumKey visited,
          decodeRangeQuery proof policy = .ok (minimumKey, maximumKey) ∧
          walkRangeProof policy budget maps minimumKey maximumKey
            proof.proofRootDigest 1 ∅ = .ok visited ∧
          visited.card = proof.proofSteps.length) := by
  have hempty : verifyEmptyProofQuery proof policy = .ok () ↔
      ∃ bounds, decodeRangeQuery proof policy = .ok bounds := by
    simp [verifyEmptyProofQuery, hkind, bind_eq_ok]
  simp only [verifyDecodedProof_eq_ok, hempty, verifyWalk, hkind, verifyRangeProof, bind_eq_ok,
    Prod.exists]
  grind

theorem preflightProofStructure_eq_ok :
    preflightProofStructure proof budget = .ok () ↔
      proof.proofSteps.length ≤ budget.maxBlockCount ∧
        ∀ step ∈ proof.proofSteps, step.proofStepExpandedChildIndexes.length ≤
          budget.maxChildReferencesPerBlock := by
  simp only [preflightProofStructure, bind_eq_ok, forM_eq_ok, rejectIf_eq_ok, Nat.not_lt,
    exists_const]

theorem verifyEnvelope_eq_ok {algorithm : HaskellString} {domain : MerkleDigest} :
    verifyEnvelope algorithm domain policy = .ok () ↔
      algorithm = merkleAlgorithmId ∧ domain = policy.merkleDomainDigest := by
  simp only [verifyEnvelope, bind_eq_ok, rejectIf_eq_ok, ne_eq, not_not, exists_const]

theorem verifyProofWithBudget_valid :
    (verifyProofWithBudget proof policy budget).proofIsValid = true ↔
      ∃ queryContext final maps,
        accountProofQuery proof.proofQuery.length proof.proofRootDigest
          (newContext budget) = .ok queryContext ∧
        preflightProofStructure proof budget = .ok () ∧
        verifyEnvelope proof.proofAlgorithmId proof.proofDomainDigest policy = .ok () ∧
        decodeProofSteps policy proof.proofSteps ∅ ∅ queryContext = (.ok maps, final) ∧
        verifyDecodedProof proof policy budget maps = .ok () := by
  rw [verifyProofWithBudget]
  simp only
  constructor
  · intro h
    split at h
    · cases h
    rename_i queryContext hquery
    split at h
    · cases h
    rename_i hshape
    split at h
    · cases h
    rename_i maps final hdecode
    split at h
    · cases h
    rename_i hverify
    rw [bind_eq_ok] at hshape
    obtain ⟨⟨⟩, hpreflight, henvelope⟩ := hshape
    exact ⟨queryContext, final, maps, hquery, hpreflight, henvelope, hdecode, hverify⟩
  · rintro ⟨queryContext, final, maps, hquery, hpreflight, henvelope, hdecode, hverify⟩
    simp only [hquery, hpreflight, except_ok_bind, henvelope, hdecode, hverify]

end Verification

end Durable7.Hamt
