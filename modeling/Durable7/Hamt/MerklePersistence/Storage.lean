import Durable7.Hamt.MerkleEncoding
import Mathlib.Data.Finmap

/-!
# Blocks, stores, packs, and verification budgets

A block pairs bytes with a claimed address and authenticates nothing.  A store
maps every address to a block that claims it.  A verification context is indexed
by the budget it is charged against and never exceeds it.
-/

namespace Durable7.Hamt

open Foundation List Nat

structure MerkleBlock where
  merkleBlockDigest : MerkleDigest
  merkleBlockBytes : ByteString
  deriving DecidableEq

inductive MerkleVerificationFailureKind where
  | NoVerificationFailure
  | UnsupportedAlgorithm
  | DomainMismatch
  | MissingBlock
  | DigestMismatch
  | MalformedBlock
  | NonCanonicalBlock
  | DuplicateBlock
  | ConflictingBlock
  | InvalidReference
  | CycleDetected
  | ProofMismatch
  | RootMismatch
  | ResourceLimitExceeded
  deriving DecidableEq

structure MerkleVerificationError where
  verificationFailureKind : MerkleVerificationFailureKind
  verificationMessage : String
  verificationBlockDigest : Option MerkleDigest
  deriving DecidableEq

def limit (message : String) (digest : MerkleDigest) : MerkleVerificationError :=
  ⟨.ResourceLimitExceeded, message, some digest⟩

def malformed (digest : MerkleDigest) (message : String) : MerkleVerificationError :=
  ⟨.MalformedBlock, message, some digest⟩

/-! ## Stores -/

abbrev DigestMap (α : Type) := Finmap fun _ : MerkleDigest => α

structure MerkleBlockStore where
  blocks : DigestMap MerkleBlock
  keyed : ∀ digest block, blocks.lookup digest = some block → block.merkleBlockDigest = digest

def emptyBlockStore : MerkleBlockStore where
  blocks := ∅
  keyed digest block h := by simp at h

def blockStoreContains (digest : MerkleDigest) (store : MerkleBlockStore) : Bool :=
  (store.blocks.lookup digest).isSome

def blockStoreLookup (digest : MerkleDigest) (store : MerkleBlockStore) : Option MerkleBlock :=
  store.blocks.lookup digest

namespace MerkleBlockStore

def insertBlock (store : MerkleBlockStore) (block : MerkleBlock) : MerkleBlockStore where
  blocks := store.blocks.insert block.merkleBlockDigest block
  keyed digest other h := by
    by_cases heq : digest = block.merkleBlockDigest
    · subst heq
      rw [Finmap.lookup_insert] at h
      cases h
      rfl
    · rw [Finmap.lookup_insert_of_ne _ heq] at h
      exact store.keyed digest other h

/-- `Map.union`: the blocks of `front` hide those of `back`. -/
def union (front back : MerkleBlockStore) : MerkleBlockStore where
  blocks := front.blocks ∪ back.blocks
  keyed digest block h := by
    by_cases hfront : digest ∈ front.blocks
    · rw [Finmap.lookup_union_left hfront] at h
      exact front.keyed digest block h
    · rw [Finmap.lookup_union_right hfront] at h
      exact back.keyed digest block h

end MerkleBlockStore

def putBlock (block : MerkleBlock) (store : MerkleBlockStore) :
    Except MerkleVerificationError (Bool × MerkleBlockStore) :=
  match blockStoreLookup block.merkleBlockDigest store with
  | none => .ok (true, store.insertBlock block)
  | some existing =>
      if existing = block then .ok (false, store)
      else
        .error ⟨.ConflictingBlock,
          "a digest is already associated with different block bytes",
          some block.merkleBlockDigest⟩

@[simp] theorem blockStoreLookup_empty (digest : MerkleDigest) :
    blockStoreLookup digest emptyBlockStore = none := by
  simp [blockStoreLookup, emptyBlockStore]

variable {store : MerkleBlockStore} {block : MerkleBlock}

theorem blockStoreLookup_digest {digest : MerkleDigest}
    (h : blockStoreLookup digest store = some block) :
    block.merkleBlockDigest = digest :=
  store.keyed digest block h

theorem blockStoreContains_iff {digest : MerkleDigest} :
    blockStoreContains digest store = true ↔
      ∃ block, blockStoreLookup digest store = some block := by
  rw [blockStoreContains, Option.isSome_iff_exists, blockStoreLookup]

theorem blockStoreLookup_insertBlock (store : MerkleBlockStore)
    (block : MerkleBlock) (digest : MerkleDigest) :
    blockStoreLookup digest (store.insertBlock block) =
      if digest = block.merkleBlockDigest then some block
      else blockStoreLookup digest store := by
  split
  · rename_i h
    subst h
    exact Finmap.lookup_insert _
  · rename_i h
    exact Finmap.lookup_insert_of_ne _ h

theorem blockStoreLookup_union (front back : MerkleBlockStore) (digest : MerkleDigest) :
    blockStoreLookup digest (front.union back) =
      (blockStoreLookup digest front).or (blockStoreLookup digest back) := by
  unfold blockStoreLookup MerkleBlockStore.union
  by_cases h : digest ∈ front.blocks
  · obtain ⟨block, hblock⟩ := Finmap.mem_iff.mp h
    rw [Finmap.lookup_union_left h, hblock, Option.some_or]
  · rw [Finmap.lookup_union_right h, Finmap.lookup_eq_none.mpr h, Option.none_or]

theorem putBlock_spec {successor : MerkleBlockStore} {added : Bool}
    (h : putBlock block store = .ok (added, successor)) :
    blockStoreLookup block.merkleBlockDigest successor = some block ∧
      (∀ digest other, blockStoreLookup digest store = some other →
        blockStoreLookup digest successor = some other) ∧
      ∀ digest other, blockStoreLookup digest successor = some other →
        other = block ∨ blockStoreLookup digest store = some other := by
  unfold putBlock at h
  split at h
  · rename_i hnone
    cases h
    refine ⟨?_, fun digest other hother => ?_, fun digest other hother => ?_⟩
    · rw [blockStoreLookup_insertBlock, if_pos rfl]
    · rw [blockStoreLookup_insertBlock, if_neg]
      · exact hother
      · rintro rfl
        rw [hnone] at hother
        cases hother
    · rw [blockStoreLookup_insertBlock] at hother
      split at hother
      · exact .inl (Option.some.inj hother).symm
      · exact .inr hother
  · rename_i existing hexisting
    split at h
    · rename_i heq
      cases h
      exact ⟨heq ▸ hexisting, fun _ _ hother => hother, fun _ _ hother => .inr hother⟩
    · cases h

theorem putBlock_total (h : ∀ existing, blockStoreLookup block.merkleBlockDigest store =
      some existing → existing = block) :
    ∃ added successor, putBlock block store = .ok (added, successor) := by
  unfold putBlock
  split
  · exact ⟨_, _, rfl⟩
  · rename_i existing hexisting
    rw [if_pos (h existing hexisting)]
    exact ⟨_, _, rfl⟩

/-- Publishes blocks one after another, as `saveTree` and `importPack` do. -/
def publishBlocks (blocks : List MerkleBlock) (store : MerkleBlockStore) :
    Except MerkleVerificationError (Nat × MerkleBlockStore) :=
  blocks.foldlM (fun state block => do
    let (isNew, successor) ← putBlock block state.2
    .ok (state.1 + (if isNew then 1 else 0), successor)) (0, store)

def preflightStore (blocks : List MerkleBlock) (store : MerkleBlockStore) :
    Except MerkleVerificationError Unit :=
  blocks.forM fun block =>
    match blockStoreLookup block.merkleBlockDigest store with
    | some existing => rejectIf (existing ≠ block) ⟨.ConflictingBlock,
        "a destination digest is associated with different block bytes",
        some block.merkleBlockDigest⟩
    | none => .ok ()

variable {blocks : List MerkleBlock}

theorem publishBlocks_spec {successor : MerkleBlockStore} {added : Nat}
    (h : publishBlocks blocks store = .ok (added, successor)) :
    (∀ block ∈ blocks, blockStoreLookup block.merkleBlockDigest successor = some block) ∧
    (∀ digest other, blockStoreLookup digest store = some other →
      blockStoreLookup digest successor = some other) ∧
    ∀ digest other, blockStoreLookup digest successor = some other →
      other ∈ blocks ∨ blockStoreLookup digest store = some other := by
  have hfold : ∀ (blocks : List MerkleBlock) (start : Nat × MerkleBlockStore),
      blocks.foldlM (fun state block => do
        let (isNew, successor) ← putBlock block state.2
        .ok (state.1 + (if isNew then 1 else 0), successor)) start = .ok (added, successor) →
      (∀ block ∈ blocks, blockStoreLookup block.merkleBlockDigest successor = some block) ∧
      (∀ digest other, blockStoreLookup digest start.2 = some other →
        blockStoreLookup digest successor = some other) ∧
      ∀ digest other, blockStoreLookup digest successor = some other →
        other ∈ blocks ∨ blockStoreLookup digest start.2 = some other := by
    intro blocks
    induction blocks with
    | nil =>
        intro start hstart
        cases hstart
        simp
    | cons block blocks ih =>
        intro start hstart
        rw [foldlM_cons, bind_eq_ok] at hstart
        obtain ⟨next, hnext, hrest⟩ := hstart
        rw [bind_eq_ok] at hnext
        obtain ⟨⟨isNew, middle⟩, hput, hnext⟩ := hnext
        cases hnext
        obtain ⟨hhere, hkeep, hback⟩ := putBlock_spec hput
        obtain ⟨hblocks, hkeep', hback'⟩ := ih _ hrest
        refine ⟨fun other hother => ?_, fun digest other hother =>
          hkeep' _ _ (hkeep _ _ hother), fun digest other hother => ?_⟩
        · rcases mem_cons.mp hother with rfl | hother
          · exact hkeep' _ _ hhere
          · exact hblocks other hother
        · rcases hback' digest other hother with hmem | hmiddle
          · exact .inl (by simp [hmem])
          · rcases hback digest other hmiddle with rfl | hstart
            · exact .inl (by simp)
            · exact .inr hstart
  exact hfold blocks (0, store) h

theorem publishBlocks_total
    (hnodup : (blocks.map MerkleBlock.merkleBlockDigest).Nodup) (h : ∀ block ∈ blocks, ∀ existing,
      blockStoreLookup block.merkleBlockDigest store = some existing → existing = block) :
    ∃ added successor, publishBlocks blocks store = .ok (added, successor) := by
  have hfold : ∀ (blocks : List MerkleBlock) (start : Nat × MerkleBlockStore),
      (blocks.map MerkleBlock.merkleBlockDigest).Nodup →
      (∀ block ∈ blocks, ∀ existing,
        blockStoreLookup block.merkleBlockDigest start.2 = some existing → existing = block) →
      ∃ result, blocks.foldlM (fun state block => do
        let (isNew, successor) ← putBlock block state.2
        .ok (state.1 + (if isNew then 1 else 0), successor)) start =
          (.ok result : Except MerkleVerificationError _) := by
    intro blocks
    induction blocks with
    | nil => exact fun start _ _ => ⟨start, rfl⟩
    | cons block blocks ih =>
        intro start hnodup hstart
        rw [map_cons, nodup_cons] at hnodup
        obtain ⟨isNew, middle, hput⟩ := putBlock_total (hstart block (by simp))
        obtain ⟨-, -, hback⟩ := putBlock_spec hput
        obtain ⟨result, hresult⟩ := ih
          (start.1 + (if isNew then 1 else 0), middle) hnodup.2
          (fun other hother existing hexisting => by
            rcases hback _ existing hexisting with rfl | hbefore
            · have hdigest := blockStoreLookup_digest hexisting
              exact absurd (hdigest ▸ mem_map_of_mem hother) hnodup.1
            · exact hstart other (by simp [hother]) existing hbefore)
        refine ⟨result, ?_⟩
        rw [foldlM_cons, hput, except_ok_bind, except_ok_bind]
        exact hresult
  obtain ⟨⟨added, successor⟩, hresult⟩ := hfold blocks (0, store) hnodup h
  exact ⟨added, successor, hresult⟩

theorem preflightStore_eq_ok :
    preflightStore blocks store = .ok () ↔ ∀ block ∈ blocks, ∀ existing,
      blockStoreLookup block.merkleBlockDigest store = some existing → existing = block := by
  rw [preflightStore, forM_eq_ok]
  refine forall_congr' fun block => imp_congr_right fun _ => ?_
  cases blockStoreLookup block.merkleBlockDigest store <;> simp

/-! ## Packs -/

structure MerkleBlockPack where
  packAlgorithmId : HaskellString
  packDomainDigest : MerkleDigest
  packRootDigest : MerkleDigest
  packBlocks : List MerkleBlock
  packTotalByteCount : Nat
  packContainsRootBlock : Bool
  deriving DecidableEq

/-- Addition of a length to a `Word64`; lengths are never negative. -/
def checkedAddWord64 (left right : Nat) (message : String)
    (digest : Option MerkleDigest) : Except MerkleVerificationError Nat :=
  if right > 2 ^ 64 - 1 - left then .error ⟨.ResourceLimitExceeded, message, digest⟩
  else .ok (left + right)

def accountDistinctBlock (duplicate overflow : String) (state : Finset MerkleDigest × Nat)
    (block : MerkleBlock) : Except MerkleVerificationError (Finset MerkleDigest × Nat) :=
  if block.merkleBlockDigest ∈ state.1 then
    .error ⟨.DuplicateBlock, duplicate, some block.merkleBlockDigest⟩
  else do
    let total ← checkedAddWord64 state.2 block.merkleBlockBytes.length overflow
      (some block.merkleBlockDigest)
    .ok (insert block.merkleBlockDigest state.1, total)

/-- Rejects a repeated address and adds up the bytes, starting from `start`. -/
def accountDistinct (duplicate overflow : String) (blocks : List MerkleBlock)
    (start : Nat) : Except MerkleVerificationError Nat := do
  let (_, total) ← blocks.foldlM (accountDistinctBlock duplicate overflow) (∅, start)
  .ok total

def makeMerkleBlockPack (algorithm : HaskellString) (domain root : MerkleDigest)
    (blocks : List MerkleBlock) :
    Except MerkleVerificationError MerkleBlockPack := do
  rejectIf (algorithm.isEmpty || algorithm.all isSpace) ⟨.MalformedBlock,
    "a Merkle pack algorithm identifier must not be empty", none⟩
  let total ← accountDistinct "a Merkle pack repeats a block digest"
    "a Merkle pack byte count overflowed" blocks 0
  .ok {
    packAlgorithmId := algorithm
    packDomainDigest := domain
    packRootDigest := root
    packBlocks := blocks
    packTotalByteCount := total
    packContainsRootBlock := blocks.any fun block => block.merkleBlockDigest == root }

def blockByteSum (blocks : List MerkleBlock) : Nat :=
  (blocks.map fun block => block.merkleBlockBytes.length).sum

theorem accountDistinct_eq_ok {duplicate overflow : String} {start total : Nat}
    (hstart : start < 2 ^ 64) :
    accountDistinct duplicate overflow blocks start = .ok total ↔
      (blocks.map MerkleBlock.merkleBlockDigest).Nodup ∧
        start + blockByteSum blocks < 2 ^ 64 ∧
        total = start + blockByteSum blocks := by
  have hfold : ∀ (blocks : List MerkleBlock) (state final : Finset MerkleDigest × Nat),
      state.2 < 2 ^ 64 →
      (blocks.foldlM (accountDistinctBlock duplicate overflow) state = .ok final ↔
      (∀ block ∈ blocks, block.merkleBlockDigest ∉ state.1) ∧
        (blocks.map MerkleBlock.merkleBlockDigest).Nodup ∧
        state.2 + blockByteSum blocks < 2 ^ 64 ∧
        final = (state.1 ∪ (blocks.map MerkleBlock.merkleBlockDigest).toFinset,
          state.2 + blockByteSum blocks)) := by
    intro blocks
    induction blocks with
    | nil =>
        intro state final hstate
        have hfinal : (Except.ok state = (Except.ok final :
            Except MerkleVerificationError _)) ↔ final = state := by
          rw [Except.ok.injEq, eq_comm]
        simpa [blockByteSum, hfinal] using fun _ => hstate
    | cons block blocks ih =>
        intro state final hstate
        rw [foldlM_cons, accountDistinctBlock]
        by_cases hseen : block.merkleBlockDigest ∈ state.1
        · rw [if_pos hseen, except_error_bind]
          simp [hseen]
        · rw [if_neg hseen, checkedAddWord64]
          have hsum : blockByteSum (block :: blocks) =
              block.merkleBlockBytes.length + blockByteSum blocks := rfl
          split
          · rw [except_error_bind, except_error_bind, hsum]
            simp only [reduceCtorEq, false_iff, not_and]
            omega
          · rw [except_ok_bind, except_ok_bind, ih _ _ (by simp only; omega), hsum]
            simp only [Finset.mem_insert, not_or, mem_cons, forall_eq_or_imp,
              map_cons, nodup_cons, mem_map, not_exists, not_and,
              toFinset_cons, hseen, not_false_eq_true, true_and,
              Finset.insert_union, Finset.union_insert, add_assoc]
            constructor
            · rintro ⟨hfresh, hnodup, hlt, rfl⟩
              exact ⟨fun other hother => (hfresh other hother).2,
                ⟨fun other hother => (hfresh other hother).1, hnodup⟩, hlt, rfl⟩
            · rintro ⟨hfresh, ⟨hdistinct, hnodup⟩, hlt, rfl⟩
              exact ⟨fun other hother => ⟨hdistinct other hother,
                hfresh other hother⟩, hnodup, hlt, rfl⟩
  rw [accountDistinct, bind_eq_ok]
  constructor
  · rintro ⟨⟨seen, sum⟩, hresult, h⟩
    cases h
    obtain ⟨-, hnodup, hlt, heq⟩ := (hfold blocks (∅, start) _ hstart).mp hresult
    exact ⟨hnodup, hlt, congrArg Prod.snd heq⟩
  · rintro ⟨hnodup, hlt, rfl⟩
    exact ⟨_, (hfold blocks (∅, start) _ hstart).mpr ⟨by simp, hnodup, hlt, rfl⟩, rfl⟩

theorem makeMerkleBlockPack_spec {algorithm : HaskellString}
    {domain root : MerkleDigest} {pack : MerkleBlockPack}
    (h : makeMerkleBlockPack algorithm domain root blocks = .ok pack) :
    pack.packAlgorithmId = algorithm ∧ pack.packDomainDigest = domain ∧
      pack.packRootDigest = root ∧ pack.packBlocks = blocks := by
  rw [makeMerkleBlockPack, bind_eq_ok] at h
  obtain ⟨⟨⟩, -, h⟩ := h
  rw [bind_eq_ok] at h
  obtain ⟨total, -, h⟩ := h
  cases h
  exact ⟨rfl, rfl, rfl, rfl⟩

theorem makeMerkleBlockPack_total {algorithm : HaskellString} {domain root : MerkleDigest}
    (halgorithm : (algorithm.isEmpty || algorithm.all isSpace) = false)
    (hnodup : (blocks.map MerkleBlock.merkleBlockDigest).Nodup)
    (htotal : blockByteSum blocks < 2 ^ 64) :
    ∃ pack, makeMerkleBlockPack algorithm domain root blocks = .ok pack := by
  rw [makeMerkleBlockPack, rejectIf_neg (by simp [halgorithm]), except_ok_bind,
    (accountDistinct_eq_ok (by decide)).mpr ⟨hnodup, by omega, rfl⟩]
  exact ⟨_, rfl⟩

/-! ## Budgets -/

inductive MerkleBudgetError where
  | ZeroVerificationLimit (name : String)
  | BlockByteLimitExceedsTotal
  | ProofQueryLimitExceedsTotal
  deriving DecidableEq

/-- Seven finite limits; the only constructor checks them. -/
structure MerkleVerificationBudget where
  maxBlockCount : Nat
  maxTotalByteCount : Nat
  maxBlockByteCount : Nat
  maxDepth : Nat
  maxEntryCount : Nat
  maxChildReferencesPerBlock : Nat
  maxProofQueryByteCount : Nat
  positive : 0 < maxBlockCount ∧ 0 < maxTotalByteCount ∧ 0 < maxBlockByteCount ∧
    0 < maxDepth ∧ 0 < maxEntryCount ∧ 0 < maxChildReferencesPerBlock ∧
    0 < maxProofQueryByteCount
  word64 : maxTotalByteCount < 2 ^ 64 ∧ maxEntryCount < 2 ^ 64
  blockBytes_le : maxBlockByteCount ≤ maxTotalByteCount
  queryBytes_le : maxProofQueryByteCount ≤ maxTotalByteCount

def makeMerkleVerificationBudget (blocks : Int64) (totalBytes : UInt64)
    (blockBytes depth : Int64) (entries : UInt64) (children queryBytes : Int64) :
    Except MerkleBudgetError MerkleVerificationBudget :=
  if h₁ : ¬ 0 < blocks.toNatClampNeg then .error (.ZeroVerificationLimit "maxBlockCount")
  else if h₂ : ¬ 0 < blockBytes.toNatClampNeg then
    .error (.ZeroVerificationLimit "maxBlockByteCount")
  else if h₃ : ¬ 0 < depth.toNatClampNeg then .error (.ZeroVerificationLimit "maxDepth")
  else if h₄ : ¬ 0 < children.toNatClampNeg then
    .error (.ZeroVerificationLimit "maxChildReferencesPerBlock")
  else if h₅ : ¬ 0 < queryBytes.toNatClampNeg then
    .error (.ZeroVerificationLimit "maxProofQueryByteCount")
  else if h₆ : totalBytes.toNat = 0 then .error (.ZeroVerificationLimit "maxTotalByteCount")
  else if h₇ : entries.toNat = 0 then .error (.ZeroVerificationLimit "maxEntryCount")
  else if h₈ : blockBytes.toNatClampNeg > totalBytes.toNat then .error .BlockByteLimitExceedsTotal
  else if h₉ : queryBytes.toNatClampNeg > totalBytes.toNat then .error .ProofQueryLimitExceedsTotal
  else
    .ok {
      maxBlockCount := blocks.toNatClampNeg
      maxTotalByteCount := totalBytes.toNat
      maxBlockByteCount := blockBytes.toNatClampNeg
      maxDepth := depth.toNatClampNeg
      maxEntryCount := entries.toNat
      maxChildReferencesPerBlock := children.toNatClampNeg
      maxProofQueryByteCount := queryBytes.toNatClampNeg
      positive := by omega
      word64 := ⟨totalBytes.toNat_lt, entries.toNat_lt⟩
      blockBytes_le := by omega
      queryBytes_le := by omega }

def defaultMerkleVerificationBudget : MerkleVerificationBudget where
  maxBlockCount := 1000000
  maxTotalByteCount := 2 ^ 30
  maxBlockByteCount := 16 * 1024 * 1024
  maxDepth := 256
  maxEntryCount := 100000000
  maxChildReferencesPerBlock := 65536
  maxProofQueryByteCount := 16 * 1024 * 1024
  positive := by decide
  word64 := by decide
  blockBytes_le := by decide
  queryBytes_le := by decide

/-- What has been charged so far; no limit of the budget is exceeded. -/
structure VerificationContext (budget : MerkleVerificationBudget) where
  contextBlockCount : Nat
  contextTotalBytes : Nat
  contextEntryCount : Nat
  contextBlocks : Finset MerkleDigest
  blockCount_le : contextBlockCount ≤ budget.maxBlockCount
  totalBytes_le : contextTotalBytes ≤ budget.maxTotalByteCount
  entryCount_le : contextEntryCount ≤ budget.maxEntryCount

section Accounting

variable {budget : MerkleVerificationBudget}

def newContext (budget : MerkleVerificationBudget) : VerificationContext budget where
  contextBlockCount := 0
  contextTotalBytes := 0
  contextEntryCount := 0
  contextBlocks := ∅
  blockCount_le := zero_le _
  totalBytes_le := zero_le _
  entryCount_le := zero_le _

def checkDepth (depth : Nat) (digest : Option MerkleDigest)
    (budget : MerkleVerificationBudget) : Except MerkleVerificationError Unit :=
  rejectIf (depth = 0 ∨ depth > budget.maxDepth) ⟨.ResourceLimitExceeded,
    "Merkle verification exceeded the maximum reference depth", digest⟩

def accountBlock (depth : Nat) (block : MerkleBlock) (context : VerificationContext budget) :
    Except MerkleVerificationError (Bool × VerificationContext budget) := do
  let digest := block.merkleBlockDigest
  let byteCount := block.merkleBlockBytes.length
  checkDepth depth (some digest) budget
  if digest ∈ context.contextBlocks then .ok (false, context)
  else if byteCount > budget.maxBlockByteCount then
    .error (limit "a Merkle block exceeds the per-block byte budget" digest)
  else if h : context.contextBlockCount ≥ budget.maxBlockCount ∨
      byteCount > budget.maxTotalByteCount - context.contextTotalBytes then
    .error (limit "Merkle verification exceeded its block or total-byte budget" digest)
  else
    .ok (true, {
      contextBlockCount := context.contextBlockCount + 1
      contextTotalBytes := context.contextTotalBytes + byteCount
      contextEntryCount := context.contextEntryCount
      contextBlocks := insert digest context.contextBlocks
      blockCount_le := by omega
      totalBytes_le := by
        have := context.totalBytes_le
        omega
      entryCount_le := context.entryCount_le })

def accountEntries (count : Nat) (digest : MerkleDigest) (context : VerificationContext budget) :
    Except MerkleVerificationError (VerificationContext budget) :=
  if h : count > budget.maxEntryCount - context.contextEntryCount then
    .error (limit "Merkle verification exceeded its decoded-entry budget" digest)
  else
    .ok { context with
      contextEntryCount := context.contextEntryCount + count
      entryCount_le := by
        have := context.entryCount_le
        omega }

def accountProofQuery (count : Nat) (root : MerkleDigest) (context : VerificationContext budget) :
    Except MerkleVerificationError (VerificationContext budget) :=
  if h : count > budget.maxProofQueryByteCount ∨
      count > budget.maxTotalByteCount - context.contextTotalBytes then
    .error (limit "a Merkle proof query exceeds its query or total-byte budget" root)
  else
    .ok { context with
      contextTotalBytes := context.contextTotalBytes + count
      totalBytes_le := by
        have := context.totalBytes_le
        omega }

theorem checkDepth_eq_ok {depth : Nat} {digest : Option MerkleDigest} :
    checkDepth depth digest budget = .ok () ↔ 0 < depth ∧ depth ≤ budget.maxDepth := by
  rw [checkDepth, rejectIf_eq_ok]
  omega

variable {context : VerificationContext budget}

theorem accountBlock_repeated {depth : Nat} (hpos : 0 < depth) (hdepth : depth ≤ budget.maxDepth)
    (h : block.merkleBlockDigest ∈ context.contextBlocks) :
    accountBlock depth block context = .ok (false, context) := by
  rw [accountBlock, checkDepth_eq_ok.mpr ⟨hpos, hdepth⟩, except_ok_bind]
  exact if_pos h

theorem accountBlock_first {depth : Nat} (hpos : 0 < depth) (hdepth : depth ≤ budget.maxDepth)
    (h : block.merkleBlockDigest ∉ context.contextBlocks)
    (hblock : block.merkleBlockBytes.length ≤ budget.maxBlockByteCount)
    (hcount : context.contextBlockCount < budget.maxBlockCount)
    (htotal : context.contextTotalBytes + block.merkleBlockBytes.length ≤
      budget.maxTotalByteCount) :
    ∃ next, accountBlock depth block context = .ok (true, next) ∧
      next.contextBlockCount = context.contextBlockCount + 1 ∧
      next.contextTotalBytes = context.contextTotalBytes + block.merkleBlockBytes.length ∧
      next.contextEntryCount = context.contextEntryCount ∧
      next.contextBlocks = insert block.merkleBlockDigest context.contextBlocks := by
  rw [accountBlock, checkDepth_eq_ok.mpr ⟨hpos, hdepth⟩, except_ok_bind]
  split
  · rename_i hmem
    exact absurd hmem h
  split
  · omega
  split
  · omega
  · exact ⟨_, rfl, rfl, rfl, rfl, rfl⟩

theorem accountEntries_total {count : Nat} {digest : MerkleDigest}
    (h : context.contextEntryCount + count ≤ budget.maxEntryCount) :
    ∃ next, accountEntries count digest context = .ok next ∧
      next.contextBlockCount = context.contextBlockCount ∧
      next.contextTotalBytes = context.contextTotalBytes ∧
      next.contextEntryCount = context.contextEntryCount + count ∧
      next.contextBlocks = context.contextBlocks := by
  unfold accountEntries
  split
  · omega
  · exact ⟨_, rfl, rfl, rfl, rfl, rfl⟩

end Accounting

end Durable7.Hamt
