import Durable7.Hamt.MerklePersistence.Transfers
import Durable7.Hamt.MerklePersistence.Reloading

/-!
# Budget safety

Every run of the verifier is a sequence of decodes over one context.  The context
charges the first decode of every digest and nothing else, so that its counts are
sums over the distinct blocks that were decoded, and none of them passes a limit.
-/

namespace Durable7.Hamt

open Foundation List Nat

variable {k v : Type} {budget : MerkleVerificationBudget}

theorem toNat_limit_sub {limit used : Nat} (hlimit : limit < 2 ^ 64) (hused : used ≤ limit) :
    (UInt64.ofNat limit - UInt64.ofNat used).toNat = limit - used := by
  have hlimit' : (UInt64.ofNat limit).toNat = limit := UInt64.toNat_ofNat_of_lt' hlimit
  have hused' : (UInt64.ofNat used).toNat = used :=
    UInt64.toNat_ofNat_of_lt' (hused.trans_lt hlimit)
  rw [UInt64.toNat_sub_of_le, hlimit', hused']
  rw [UInt64.le_iff_toNat_le, hlimit', hused']
  exact hused

/-! ## Visits -/

/-- A decoded block and the depth at which it was decoded. -/
structure Visit (k v : Type) where
  decoded : DecodedBlock k v
  depth : Nat

namespace Visit

def digest (visit : Visit k v) : MerkleDigest := visit.decoded.decodedBlockSource.merkleBlockDigest

def bytes (visit : Visit k v) : ByteString := visit.decoded.decodedBlockSource.merkleBlockBytes

def entryCount (visit : Visit k v) : Nat := visit.decoded.decodedEntries.length

end Visit

/-- The visits that are the first at their digest. -/
def firstVisits (seen : Finset MerkleDigest) : List (Visit k v) → List (Visit k v)
  | [] => []
  | visit :: visits =>
      if visit.digest ∈ seen then firstVisits seen visits
      else visit :: firstVisits (Insert.insert visit.digest seen) visits

theorem firstVisits_distinct (seen : Finset MerkleDigest) (visits : List (Visit k v)) :
    ((firstVisits seen visits).map Visit.digest).Nodup ∧
      ∀ digest, digest ∈ (firstVisits seen visits).map Visit.digest ↔
        digest ∈ visits.map Visit.digest ∧ digest ∉ seen := by
  induction visits generalizing seen with
  | nil => simp [firstVisits]
  | cons visit visits ih =>
      rw [firstVisits]
      by_cases hseen : visit.digest ∈ seen
      · rw [if_pos hseen]
        obtain ⟨hnodup, hmem⟩ := ih seen
        refine ⟨hnodup, fun digest => ?_⟩
        rw [hmem, map_cons, mem_cons]
        constructor
        · rintro ⟨hvisits, hfresh⟩
          exact ⟨.inr hvisits, hfresh⟩
        · rintro ⟨rfl | hvisits, hfresh⟩
          · exact absurd hseen hfresh
          · exact ⟨hvisits, hfresh⟩
      · rw [if_neg hseen, map_cons, nodup_cons]
        obtain ⟨hnodup, hmem⟩ := ih (Insert.insert visit.digest seen)
        refine ⟨⟨fun h => ?_, hnodup⟩, fun digest => ?_⟩
        · exact ((hmem _).mp h).2 (Finset.mem_insert_self _ _)
        · rw [mem_cons, hmem, map_cons, mem_cons, Finset.mem_insert]
          by_cases heq : digest = visit.digest
          · simp [heq, hseen]
          · simp [heq]

theorem firstVisits_sublist (seen : Finset MerkleDigest) (visits : List (Visit k v)) :
    (firstVisits seen visits).Sublist visits := by
  induction visits generalizing seen with
  | nil => exact .slnil
  | cons visit visits ih =>
      rw [firstVisits]
      split
      · exact (ih _).cons _
      · exact (ih _).cons_cons _

/-- A finite sequence of decodes, each in the context that the last one left. -/
inductive Decodes (policy : MerkleSearchTreePolicy k v) :
    VerificationContext budget → List (Visit k v) → VerificationContext budget → Prop
  | nil (context : VerificationContext budget) : Decodes policy context [] context
  | cons {start next final : VerificationContext budget} {block : MerkleBlock}
      {visit : Visit k v} {visits : List (Visit k v)}
      (first : decodeBlock policy block visit.depth start = .ok (visit.decoded, next))
      (rest : Decodes policy next visits final) :
      Decodes policy start (visit :: visits) final

variable {policy : MerkleSearchTreePolicy k v}

variable {start final : VerificationContext budget} {middle : VerificationContext budget}

theorem Decodes.append {before after : List (Visit k v)}
    (hbefore : Decodes policy start before middle) (hafter : Decodes policy middle after final) :
    Decodes policy start (before ++ after) final := by
  induction hbefore with
  | nil context => exact hafter
  | cons first _ ih => exact .cons first (ih hafter)

variable {visits : List (Visit k v)}

theorem Decodes.snoc (h : Decodes policy start visits middle)
    {block : MerkleBlock} {depth : Nat} {decoded : DecodedBlock k v}
    (hdecode : decodeBlock policy block depth middle = .ok (decoded, final)) :
    Decodes policy start (visits ++ [⟨decoded, depth⟩]) final := by
  have hlast : Decodes policy middle [⟨decoded, depth⟩] final := .cons hdecode (.nil final)
  exact h.append hlast

/-! ## What a sequence of decodes charges -/

theorem chargeBlock_cases {block : MerkleBlock} {depth entryCount : Nat}
    {next : VerificationContext budget} (h : chargeBlock block depth entryCount start = .ok next) :
    (0 < depth ∧ depth ≤ budget.maxDepth) ∧
      entryCount + 1 ≤ budget.maxChildReferencesPerBlock ∧
      ((block.merkleBlockDigest ∈ start.contextBlocks ∧ next = start) ∨
        (block.merkleBlockDigest ∉ start.contextBlocks ∧
          block.merkleBlockBytes.length ≤ budget.maxBlockByteCount ∧
          next.contextBlocks = Insert.insert block.merkleBlockDigest start.contextBlocks ∧
          next.contextBlockCount = start.contextBlockCount + 1 ∧
          next.contextTotalBytes = start.contextTotalBytes + block.merkleBlockBytes.length ∧
          next.contextEntryCount = start.contextEntryCount + entryCount)) := by
  rw [chargeBlock, bind_eq_ok] at h
  obtain ⟨⟨firstVisit, admitted⟩, haccount, h⟩ := h
  simp only at h
  rw [bind_eq_ok] at h
  obtain ⟨done, hchildren, hentries⟩ := h
  rw [rejectIf_eq_ok] at hchildren
  rw [accountBlock, bind_eq_ok] at haccount
  obtain ⟨done, hdepth, haccount⟩ := haccount
  refine ⟨checkDepth_eq_ok.mp hdepth, by omega, ?_⟩
  split at haccount
  · rename_i hrepeated
    cases haccount
    cases hentries
    exact .inl ⟨hrepeated, rfl⟩
  · rename_i hfresh
    split at haccount
    · cases haccount
    rename_i hsize
    split at haccount
    · cases haccount
    cases haccount
    simp only [if_true, accountEntries] at hentries
    split at hentries
    · cases hentries
    cases hentries
    exact .inr ⟨hfresh, not_lt.mp hsize, rfl, rfl, rfl, rfl⟩

/-- The counts of a context after a sequence of decodes. -/
structure Charged (start : VerificationContext budget) (visits : List (Visit k v))
    (final : VerificationContext budget) : Prop where
  blocks_eq : final.contextBlocks = start.contextBlocks ∪ (visits.map Visit.digest).toFinset
  blockCount_eq : final.contextBlockCount =
    start.contextBlockCount + (firstVisits start.contextBlocks visits).length
  totalBytes_eq : final.contextTotalBytes = start.contextTotalBytes +
    ((firstVisits start.contextBlocks visits).map fun visit => visit.bytes.length).sum
  entryCount_eq : final.contextEntryCount = start.contextEntryCount +
    ((firstVisits start.contextBlocks visits).map Visit.entryCount).sum

theorem Decodes.charged (h : Decodes policy start visits final) : Charged start visits final := by
  induction h with
  | nil context => exact ⟨by simp, rfl, rfl, rfl⟩
  | @cons start next final block visit visits first _ ih =>
      obtain ⟨rfl, -, hcharge⟩ := decodeBlock_eq_ok.mp first
      obtain ⟨-, -, hcases⟩ := chargeBlock_cases hcharge
      obtain ⟨hblocks, hcount, hbytes, hentries⟩ := ih
      rcases hcases with ⟨hrepeated, rfl⟩ | ⟨hfresh, -, hnext, hnextCount, hnextBytes, hnextEntries⟩
      · have hseen : visit.digest ∈ next.contextBlocks := hrepeated
        refine ⟨?_, ?_, ?_, ?_⟩
        · rw [hblocks, map_cons, toFinset_cons, Finset.union_insert,
            Finset.insert_eq_of_mem (Finset.mem_union_left _ hseen)]
        · rw [firstVisits, if_pos hseen, hcount]
        · rw [firstVisits, if_pos hseen, hbytes]
        · rw [firstVisits, if_pos hseen, hentries]
      · have hunseen : visit.digest ∉ start.contextBlocks := hfresh
        have hinserted : next.contextBlocks =
            Insert.insert visit.digest start.contextBlocks := hnext
        rw [hinserted] at hblocks hcount hbytes hentries
        refine ⟨?_, ?_, ?_, ?_⟩
        · rw [hblocks, map_cons, toFinset_cons, Finset.union_insert, Finset.insert_union]
        · rw [firstVisits, if_neg hunseen, hcount, hnextCount, length_cons]
          omega
        · rw [firstVisits, if_neg hunseen, hbytes, hnextBytes, map_cons, sum_cons,
            Visit.bytes, add_assoc]
        · rw [firstVisits, if_neg hunseen, hentries, hnextEntries, map_cons,
            sum_cons, Visit.entryCount, add_assoc]

/-- Another visit of the same digest with other bytes. -/
def Collides (visits : List (Visit k v)) (visit : Visit k v) : Prop :=
  ∃ other ∈ visits, hashBytes other.bytes = hashBytes visit.bytes ∧ other.bytes ≠ visit.bytes

/-- A visit within the limits on depth, references, and size. -/
structure WithinLimits (budget : MerkleVerificationBudget) (visits : List (Visit k v))
    (visit : Visit k v) : Prop where
  depth_pos : 0 < visit.depth
  depth_le : visit.depth ≤ budget.maxDepth
  children_le : visit.decoded.decodedChildDigests.length ≤ budget.maxChildReferencesPerBlock
  bytes_le : visit.bytes.length ≤ budget.maxBlockByteCount ∨ Collides visits visit

theorem Decodes.visit_spec (h : Decodes policy start visits final) :
    (∀ visit ∈ visits, (0 < visit.depth ∧ visit.depth ≤ budget.maxDepth) ∧
      visit.decoded.decodedChildDigests.length ≤ budget.maxChildReferencesPerBlock ∧
      hashBytes visit.bytes = visit.digest) ∧
    ∀ visit ∈ firstVisits start.contextBlocks visits,
      visit.bytes.length ≤ budget.maxBlockByteCount := by
  induction h with
  | nil context =>
      constructor
      · simp
      · simp [firstVisits]
  | @cons start next final block visit visits first _ ih =>
      obtain ⟨rfl, hwellFormed, hcharge⟩ := decodeBlock_eq_ok.mp first
      obtain ⟨hdepth, hchildren, hcases⟩ := chargeBlock_cases hcharge
      obtain ⟨hall, hfirst⟩ := ih
      refine ⟨fun other hother => ?_, fun other hother => ?_⟩
      · rcases mem_cons.mp hother with rfl | hother
        · refine ⟨hdepth, ?_, hwellFormed.digest_eq⟩
          rw [hwellFormed.arity]
          exact hchildren
        · exact hall other hother
      · rw [firstVisits] at hother
        rcases hcases with ⟨hrepeated, rfl⟩ | ⟨hfresh, hsize, hnext, -⟩
        · rw [if_pos (show visit.digest ∈ next.contextBlocks from hrepeated)] at hother
          exact hfirst other hother
        · rw [if_neg (show visit.digest ∉ start.contextBlocks from hfresh)] at hother
          rcases mem_cons.mp hother with rfl | hother
          · exact hsize
          · apply hfirst other
            rw [hnext]
            exact hother

theorem Decodes.withinLimits (h : Decodes policy start visits final)
    (hstart : start.contextBlocks = ∅) :
    ∀ visit ∈ visits, WithinLimits budget visits visit := by
  obtain ⟨hall, hfirst⟩ := h.visit_spec
  rw [hstart] at hfirst
  intro visit hvisit
  obtain ⟨⟨hpos, hdepth⟩, hchildren, hhash⟩ := hall visit hvisit
  refine ⟨hpos, hdepth, hchildren, ?_⟩
  have hmem : visit.digest ∈ (firstVisits ∅ visits).map Visit.digest :=
    ((firstVisits_distinct ∅ visits).2 _).mpr ⟨mem_map_of_mem hvisit, Finset.notMem_empty _⟩
  obtain ⟨first, hmember, hdigest⟩ := mem_map.mp hmem
  have hvisited := (firstVisits_sublist ∅ visits).subset hmember
  by_cases hbytes : first.bytes = visit.bytes
  · rw [← hbytes]
    exact .inl (hfirst first hmember)
  · have hfirstHash := (hall first hvisited).2.2
    exact .inr ⟨first, hvisited, by rw [hfirstHash, hhash, hdigest], hbytes⟩

/--
The account of a context: it charges `query` bytes and the first visit of every
digest, stays within the limits, and leaves their words without a wrap.
-/
structure Accounted (query : Nat) (visits : List (Visit k v))
    (context : VerificationContext budget) : Prop where
  blockCount_le : context.contextBlockCount ≤ budget.maxBlockCount
  totalBytes_le : context.contextTotalBytes ≤ budget.maxTotalByteCount
  entryCount_le : context.contextEntryCount ≤ budget.maxEntryCount
  totalBytes_sub : (UInt64.ofNat budget.maxTotalByteCount -
    UInt64.ofNat context.contextTotalBytes).toNat =
      budget.maxTotalByteCount - context.contextTotalBytes
  entryCount_sub : (UInt64.ofNat budget.maxEntryCount -
    UInt64.ofNat context.contextEntryCount).toNat = budget.maxEntryCount - context.contextEntryCount
  blocks_eq : context.contextBlocks = (visits.map Visit.digest).toFinset
  once : ((firstVisits ∅ visits).map Visit.digest).Nodup ∧
    ∀ digest, digest ∈ (firstVisits ∅ visits).map Visit.digest ↔ digest ∈ context.contextBlocks
  blockCount_eq : context.contextBlockCount = (firstVisits ∅ visits).length
  totalBytes_eq : context.contextTotalBytes =
    query + ((firstVisits ∅ visits).map fun visit => visit.bytes.length).sum
  entryCount_eq : context.contextEntryCount = ((firstVisits ∅ visits).map Visit.entryCount).sum
  within : ∀ visit ∈ visits, WithinLimits budget visits visit

/-- A context that has charged a query and no block. -/
structure QueryOnly (query : Nat) (context : VerificationContext budget) : Prop where
  blocks_eq : context.contextBlocks = ∅
  blockCount_eq : context.contextBlockCount = 0
  totalBytes_eq : context.contextTotalBytes = query
  entryCount_eq : context.contextEntryCount = 0

theorem QueryOnly.newContext : QueryOnly 0 (newContext budget) := ⟨rfl, rfl, rfl, rfl⟩

variable {root : MerkleDigest} {context : VerificationContext budget}

theorem accountProofQuery_queryOnly {count : Nat}
    (h : accountProofQuery count root (newContext budget) = .ok context) :
    QueryOnly count context := by
  rw [accountProofQuery] at h
  split at h
  · cases h
  · cases h
    exact ⟨rfl, rfl, zero_add _, rfl⟩

theorem Decodes.accounted {query : Nat} (hstart : QueryOnly query start)
    (h : Decodes policy start visits final) : Accounted query visits final := by
  obtain ⟨hblocks, hcount, hbytes, hentries⟩ := h.charged
  rw [hstart.blocks_eq] at hblocks hcount hbytes hentries
  rw [Finset.empty_union] at hblocks
  rw [hstart.blockCount_eq, zero_add] at hcount
  rw [hstart.totalBytes_eq] at hbytes
  rw [hstart.entryCount_eq, zero_add] at hentries
  obtain ⟨hnodup, hmem⟩ := firstVisits_distinct ∅ visits
  exact {
    blockCount_le := final.blockCount_le
    totalBytes_le := final.totalBytes_le
    entryCount_le := final.entryCount_le
    totalBytes_sub := toNat_limit_sub budget.word64.1 final.totalBytes_le
    entryCount_sub := toNat_limit_sub budget.word64.2 final.entryCount_le
    blocks_eq := hblocks
    once := by
      refine ⟨hnodup, fun digest => ?_⟩
      rw [hmem, hblocks, mem_toFinset]
      simp
    blockCount_eq := hcount
    totalBytes_eq := hbytes
    entryCount_eq := hentries
    within := h.withinLimits hstart.blocks_eq }

/-! ## The decodes of a load -/

/-- One call of the block decoder. -/
structure DecodeCall (budget : MerkleVerificationBudget) where
  block : MerkleBlock
  depth : Nat
  context : VerificationContext budget

/-- What a load is at: one digest, or the rest of the intervals of a block. -/
inductive LoadTask where
  | node (digest : MerkleDigest)
  | children (digests : List MerkleDigest)

/-- The calls of the decoder that a load makes, whether it succeeds or fails later. -/
inductive LoadCalls (policy : MerkleSearchTreePolicy k v) (store : MerkleBlockStore) :
    LoadTask → Nat → DigestMap (LoadedNode k v) → Finset MerkleDigest →
      VerificationContext budget → DecodeCall budget → Prop
  | here {digest : MerkleDigest} {depth : Nat} {cache : DigestMap (LoadedNode k v)}
      {active : Finset MerkleDigest} {context : VerificationContext budget}
      {block : MerkleBlock} (hdepth : checkDepth depth (some digest) budget = .ok ())
      (hcache : cache.lookup digest = none) (hactive : digest ∉ active)
      (hblock : blockStoreLookup digest store = some block) :
      LoadCalls policy store (.node digest) depth cache active context ⟨block, depth, context⟩
  | inside {digest : MerkleDigest} {depth : Nat} {cache : DigestMap (LoadedNode k v)}
      {active : Finset MerkleDigest} {context next : VerificationContext budget}
      {block : MerkleBlock} {decoded : DecodedBlock k v} {call : DecodeCall budget}
      (hdepth : checkDepth depth (some digest) budget = .ok ())
      (hcache : cache.lookup digest = none) (hactive : digest ∉ active)
      (hblock : blockStoreLookup digest store = some block)
      (hdecode : decodeBlock policy block depth context = .ok (decoded, next))
      (hcall : LoadCalls policy store (.children decoded.decodedChildDigests) (depth + 1)
        cache (Insert.insert digest active) next call) :
      LoadCalls policy store (.node digest) depth cache active context call
  | empty {digest : MerkleDigest} {digests : List MerkleDigest} {depth : Nat}
      {cache : DigestMap (LoadedNode k v)} {active : Finset MerkleDigest}
      {context : VerificationContext budget} {call : DecodeCall budget}
      (hempty : digest = policy.merkleEmptyDigest)
      (hcall : LoadCalls policy store (.children digests) depth cache active context call) :
      LoadCalls policy store (.children (digest :: digests)) depth cache active context call
  | first {digest : MerkleDigest} {digests : List MerkleDigest} {depth : Nat}
      {cache : DigestMap (LoadedNode k v)} {active : Finset MerkleDigest}
      {context : VerificationContext budget} {call : DecodeCall budget}
      (hpresent : digest ≠ policy.merkleEmptyDigest)
      (hcall : LoadCalls policy store (.node digest) depth cache active context call) :
      LoadCalls policy store (.children (digest :: digests)) depth cache active context call
  | later {digest : MerkleDigest} {digests : List MerkleDigest} {depth : Nat}
      {cache nextCache : DigestMap (LoadedNode k v)} {active : Finset MerkleDigest}
      {context next : VerificationContext budget} {loaded : LoadedNode k v}
      {call : DecodeCall budget} (hpresent : digest ≠ policy.merkleEmptyDigest)
      (hload : loadNode digest depth policy store cache active context =
        .ok (loaded, nextCache, next))
      (hcall : LoadCalls policy store (.children digests) depth nextCache active next call) :
      LoadCalls policy store (.children (digest :: digests)) depth cache active context call

variable {store : MerkleBlockStore}

/-- Every decoded block is the one that the store holds under its digest. -/
def FromStore (store : MerkleBlockStore) (visits : List (Visit k v)) : Prop :=
  ∀ visit ∈ visits, blockStoreLookup visit.digest store = some visit.decoded.decodedBlockSource

theorem FromStore.append {before after : List (Visit k v)} (hbefore : FromStore store before)
    (hafter : FromStore store after) : FromStore store (before ++ after) := by
  intro visit hvisit
  exact (mem_append.mp hvisit).elim (hbefore visit) (hafter visit)

theorem FromStore.cons {visit : Visit k v} {digest : MerkleDigest}
    (hvisit : blockStoreLookup digest store = some visit.decoded.decodedBlockSource)
    (hvisits : FromStore store visits) : FromStore store (visit :: visits) := by
  intro other hother
  rcases mem_cons.mp hother with rfl | hother
  · rw [Visit.digest, blockStoreLookup_digest hvisit]
    exact hvisit
  · exact hvisits other hother

theorem Decodes.not_collides (h : Decodes policy start visits final)
    (hstore : FromStore store visits) : ∀ visit ∈ visits, ¬ Collides visits visit := by
  rintro visit hvisit ⟨other, hother, hhash, hbytes⟩
  obtain ⟨hall, -⟩ := h.visit_spec
  rw [(hall other hother).2.2, (hall visit hvisit).2.2] at hhash
  have hsame := hstore other hother
  rw [hhash, hstore visit hvisit, Option.some.injEq] at hsame
  rw [Visit.bytes, Visit.bytes, hsame] at hbytes
  exact hbytes rfl

/-- Loading one digest is a sequence of decodes. -/
private def LoadDecodes (policy : MerkleSearchTreePolicy k v) (store : MerkleBlockStore)
    (budget : MerkleVerificationBudget) (depth : Nat) : Prop :=
  ∀ (digest : MerkleDigest) (cache : DigestMap (LoadedNode k v))
    (active : Finset MerkleDigest) (context : VerificationContext budget)
    (loaded : LoadedNode k v) (cache' : DigestMap (LoadedNode k v))
    (context' : VerificationContext budget),
    loadNode digest depth policy store cache active context = .ok (loaded, cache', context') →
      ∃ visits : List (Visit k v), Decodes policy context visits context' ∧ FromStore store visits

private theorem loadChildren_decodes {depth : Nat} (hnode : LoadDecodes policy store budget depth) :
    ∀ (digests : List MerkleDigest) (cache : DigestMap (LoadedNode k v))
      (active : Finset MerkleDigest) (context : VerificationContext budget)
      (children : List (Option (LoadedNode k v))) (cache' : DigestMap (LoadedNode k v))
      (context' : VerificationContext budget),
      loadChildren digests depth policy store cache active context =
        .ok (children, cache', context') →
      ∃ visits : List (Visit k v), Decodes policy context visits context' ∧
        FromStore store visits := by
  intro digests
  induction digests with
  | nil =>
      intro cache active context children cache' context' h
      rw [loadChildren] at h
      cases h
      exact ⟨[], .nil context, by simp [FromStore]⟩
  | cons digest digests ih =>
      intro cache active context children cache' context' h
      rw [loadChildren] at h
      split at h
      · obtain ⟨⟨rest, nextCache, next⟩, hrest, h⟩ := bind_eq_ok.mp h
        cases h
        exact ih _ _ _ _ _ _ hrest
      · obtain ⟨⟨child, nextCache, next⟩, hchild, h⟩ := bind_eq_ok.mp h
        obtain ⟨⟨rest, finalCache, final⟩, hrest, h⟩ := bind_eq_ok.mp h
        cases h
        obtain ⟨before, hbefore, hbeforeStore⟩ := hnode _ _ _ _ _ _ _ hchild
        obtain ⟨after, hafter, hafterStore⟩ := ih _ _ _ _ _ _ hrest
        exact ⟨before ++ after, hbefore.append hafter, hbeforeStore.append hafterStore⟩

theorem loadNode_decodes (depth : Nat) : LoadDecodes policy store budget depth := by
  -- induction on the depth that is still allowed
  generalize hremaining : budget.maxDepth + 1 - depth = remaining
  induction remaining generalizing depth with
  | zero =>
      intro digest cache active context loaded cache' context' h
      rw [loadNode] at h
      split at h
      · cases h
      · rename_i hdepth
        have hle := (checkDepth_eq_ok.mp hdepth).2
        omega
  | succ remaining ih =>
      intro digest cache active context loaded cache' context' h
      rw [loadNode] at h
      split at h
      · cases h
      split at h
      · cases h
        exact ⟨[], .nil context, by simp [FromStore]⟩
      split at h
      · cases h
      split at h
      · cases h
      rename_i block hblock
      obtain ⟨⟨decoded, next⟩, hdecode, h⟩ := bind_eq_ok.mp h
      obtain ⟨⟨children, cache1, final⟩, hchildren, h⟩ := bind_eq_ok.mp h
      obtain ⟨node, -, h⟩ := bind_eq_ok.mp h
      cases h
      obtain ⟨visits, hvisits, hstore⟩ := loadChildren_decodes (ih (depth + 1) (by omega))
        _ _ _ _ _ _ _ hchildren
      have hfirst : Decodes policy context (⟨decoded, depth⟩ :: visits) context' :=
        .cons hdecode hvisits
      obtain ⟨rfl, -⟩ := decodeBlock_eq_ok.mp hdecode
      exact ⟨_, hfirst, hstore.cons hblock⟩

variable {call : DecodeCall budget}

theorem LoadCalls.decodes {task : LoadTask} {depth : Nat}
    {cache : DigestMap (LoadedNode k v)} {active : Finset MerkleDigest}
    (h : LoadCalls policy store task depth cache active context call) :
    (∃ visits : List (Visit k v), Decodes policy context visits call.context ∧
      FromStore store visits) ∧
      blockStoreLookup call.block.merkleBlockDigest store = some call.block := by
  induction h with
  | here _ _ _ hblock =>
      refine ⟨⟨[], .nil _, by simp [FromStore]⟩, ?_⟩
      simp only
      rw [blockStoreLookup_digest hblock]
      exact hblock
  | @inside digest depth cache active context next block decoded call hdepth hcache hactive
      hblock hdecode hcall ih =>
      obtain ⟨⟨visits, hvisits, hstore⟩, hcallBlock⟩ := ih
      have hfirst : Decodes policy context (⟨decoded, depth⟩ :: visits) call.context :=
        .cons hdecode hvisits
      obtain ⟨rfl, -⟩ := decodeBlock_eq_ok.mp hdecode
      exact ⟨⟨_, hfirst, hstore.cons hblock⟩, hcallBlock⟩
  | empty _ _ ih => exact ih
  | first _ _ ih => exact ih
  | later _ hload _ ih =>
      obtain ⟨before, hbefore, hbeforeStore⟩ := loadNode_decodes _ _ _ _ _ _ _ _ hload
      obtain ⟨⟨after, hafter, hafterStore⟩, hcallBlock⟩ := ih
      exact ⟨⟨before ++ after, hbefore.append hafter, hbeforeStore.append hafterStore⟩, hcallBlock⟩

/-- A call in an accounted context, whose success leaves an accounted context. -/
def SafeCall (policy : MerkleSearchTreePolicy k v) (query : Nat) (call : DecodeCall budget) :
    Prop :=
  ∃ visits : List (Visit k v), Accounted query visits call.context ∧
    ∀ decoded next, decodeBlock policy call.block call.depth call.context = .ok (decoded, next) →
      decoded.decodedBlockSource = call.block ∧
        Accounted query (visits ++ [⟨decoded, call.depth⟩]) next

theorem Decodes.safeCall {query : Nat} (hstart : QueryOnly query start)
    (h : Decodes policy start visits call.context) : SafeCall policy query call := by
  refine ⟨visits, h.accounted hstart, fun decoded next hdecode => ?_⟩
  exact ⟨(decodeBlock_eq_ok.mp hdecode).1, (h.snoc hdecode).accounted hstart⟩

theorem loadWithContext_decodes {tree : MerkleSearchTree k v}
    {initial context : VerificationContext budget}
    (h : loadWithContext root policy store initial = .ok (tree, context)) :
    ∃ visits : List (Visit k v), Decodes policy initial visits context ∧
      ∀ visit ∈ visits, ¬ Collides visits visit := by
  unfold loadWithContext at h
  split at h
  · cases h
    exact ⟨[], .nil _, by simp⟩
  · obtain ⟨⟨loaded, cache, final⟩, hload, h⟩ := bind_eq_ok.mp h
    obtain ⟨rebuilt, -, h⟩ := bind_eq_ok.mp h
    cases h
    obtain ⟨visits, hvisits, hstore⟩ := loadNode_decodes _ _ _ _ _ _ _ _ hload
    exact ⟨visits, hvisits, hvisits.not_collides hstore⟩

/-- A call of a load: no visit before it, nor its own, collides with another. -/
def SafeLoadCall (policy : MerkleSearchTreePolicy k v) (call : DecodeCall budget) : Prop :=
  ∃ visits : List (Visit k v),
    (Accounted 0 visits call.context ∧ ∀ visit ∈ visits, ¬ Collides visits visit) ∧
    ∀ decoded next, decodeBlock policy call.block call.depth call.context = .ok (decoded, next) →
      decoded.decodedBlockSource = call.block ∧
        Accounted 0 (visits ++ [⟨decoded, call.depth⟩]) next ∧
        ∀ visit ∈ visits ++ [⟨decoded, call.depth⟩],
          ¬ Collides (visits ++ [⟨decoded, call.depth⟩]) visit

theorem LoadCalls.safe (h : LoadCalls policy store (.node root) 1 ∅ ∅ (newContext budget) call) :
    SafeLoadCall policy call := by
  obtain ⟨⟨visits, hvisits, hstore⟩, hblock⟩ := h.decodes
  refine ⟨visits, ⟨hvisits.accounted QueryOnly.newContext, hvisits.not_collides hstore⟩, ?_⟩
  intro decoded next hdecode
  have hsnoc := hvisits.snoc hdecode
  obtain ⟨hsource, -⟩ := decodeBlock_eq_ok.mp hdecode
  rw [← hsource] at hblock
  have hlast : FromStore store [(⟨decoded, call.depth⟩ : Visit k v)] :=
    FromStore.cons hblock (by simp [FromStore])
  exact ⟨hsource, hsnoc.accounted QueryOnly.newContext, hsnoc.not_collides (hstore.append hlast)⟩

/-- The calls of an import: one for every supplied block, then those of the load. -/
inductive ImportCalls (pack : MerkleBlockPack) (policy : MerkleSearchTreePolicy k v)
    (destination : MerkleBlockStore) : DecodeCall budget → Prop
  | supplied {before after : List MerkleBlock} {block : MerkleBlock}
      {context : VerificationContext budget}
      (henvelope : verifyEnvelope pack.packAlgorithmId pack.packDomainDigest policy = .ok ())
      (hblocks : pack.packBlocks = before ++ block :: after)
      (hbefore : verifySupplied policy before (newContext budget) = .ok context) :
      ImportCalls pack policy destination ⟨block, 1, context⟩
  | loaded {context : VerificationContext budget} {staged : MerkleBlockStore}
      {call : DecodeCall budget}
      (henvelope : verifyEnvelope pack.packAlgorithmId pack.packDomainDigest policy = .ok ())
      (hsupplied : verifySupplied policy pack.packBlocks (newContext budget) = .ok context)
      (hstaged : pack.packBlocks.foldlM stageBlock emptyBlockStore = .ok staged)
      (hroot : pack.packRootDigest ≠ policy.merkleEmptyDigest)
      (hcall : LoadCalls policy (staged.union destination) (.node pack.packRootDigest) 1 ∅ ∅
        context call) :
      ImportCalls pack policy destination call

theorem verifySupplied_decodes (blocks : List MerkleBlock) :
    ∀ start context : VerificationContext budget,
      verifySupplied policy blocks start = .ok context →
        ∃ visits : List (Visit k v), Decodes policy start visits context := by
  induction blocks with
  | nil =>
      intro start context h
      cases h
      exact ⟨[], .nil _⟩
  | cons block blocks ih =>
      intro start context h
      rw [verifySupplied, foldlM_cons] at h
      obtain ⟨next, hnext, hrest⟩ := bind_eq_ok.mp h
      obtain ⟨⟨decoded, charged⟩, hdecode, hcharged⟩ := map_eq_ok.mp hnext
      obtain rfl : charged = next := hcharged
      obtain ⟨visits, hvisits⟩ := ih charged context hrest
      have hfirst : Decodes policy start (⟨decoded, 1⟩ :: visits) context := .cons hdecode hvisits
      exact ⟨_, hfirst⟩

theorem ImportCalls.decodes {pack : MerkleBlockPack} {destination : MerkleBlockStore}
    (h : ImportCalls pack policy destination call) :
    ∃ visits : List (Visit k v), Decodes policy (newContext budget) visits call.context := by
  cases h with
  | supplied _ _ hbefore => exact verifySupplied_decodes _ _ _ hbefore
  | loaded _ hsupplied _ _ hcall =>
      obtain ⟨before, hbefore⟩ := verifySupplied_decodes _ _ _ hsupplied
      obtain ⟨⟨after, hafter, -⟩, -⟩ := hcall.decodes
      exact ⟨before ++ after, hbefore.append hafter⟩

/-- The store that a caller holds after an import. -/
def storeAfter (destination : MerkleBlockStore) :
    Except MerkleVerificationError (MerkleSearchTree k v × MerkleBlockStore) → MerkleBlockStore
  | .ok (_, published) => published
  | .error _ => destination

/-- The calls of a proof verification: one for every step that is admitted. -/
inductive ProofCalls (proof : MerkleProof) (policy : MerkleSearchTreePolicy k v) :
    DecodeCall budget → Prop
  | step {queryContext context : VerificationContext budget} {before after : List MerkleProofStep}
      {step : MerkleProofStep} {maps : ProofMaps k v}
      {admitted : Bool × VerificationContext budget}
      (hquery : accountProofQuery proof.proofQuery.length proof.proofRootDigest
        (newContext budget) = .ok queryContext)
      (hpreflight : preflightProofStructure proof budget = .ok ())
      (henvelope : verifyEnvelope proof.proofAlgorithmId proof.proofDomainDigest policy = .ok ())
      (hsteps : proof.proofSteps = before ++ step :: after)
      (hbefore : decodeProofSteps policy before ∅ ∅ queryContext = (.ok maps, context))
      (hadmitted : accountBlock 1 step.proofStepBlock context = .ok admitted) :
      ProofCalls proof policy ⟨step.proofStepBlock, 1, context⟩

theorem decodeProofSteps_decodes (steps : List MerkleProofStep) :
    ∀ (decoded : DigestMap (DecodedBlock k v)) (seen : DigestMap MerkleProofStep)
      (start final : VerificationContext budget) (maps : ProofMaps k v),
      decodeProofSteps policy steps decoded seen start = (.ok maps, final) →
        ∃ visits : List (Visit k v), visits.length = steps.length ∧
          Decodes policy start visits final := by
  induction steps with
  | nil =>
      intro decoded seen start final maps h
      rw [decodeProofSteps] at h
      cases h
      exact ⟨[], rfl, .nil _⟩
  | cons step steps ih =>
      intro decoded seen start final maps h
      rw [decodeProofSteps] at h
      split at h
      · cases h
      split at h
      · cases h
      rename_i parsed next hdecode
      split at h
      · cases h
      split at h
      · cases h
      obtain ⟨visits, hlength, hvisits⟩ := ih _ _ _ _ _ h
      have hfirst : Decodes policy start (⟨parsed, 1⟩ :: visits) final := .cons hdecode hvisits
      exact ⟨_, by rw [length_cons, length_cons, hlength], hfirst⟩

theorem verifyProofWithBudget_reported (proof : MerkleProof)
    (policy : MerkleSearchTreePolicy k v) (budget : MerkleVerificationBudget) :
    ∃ context : VerificationContext budget,
      (verifyProofWithBudget proof policy budget).proofVerifiedBlockCount =
          context.contextBlockCount ∧
        (verifyProofWithBudget proof policy budget).proofVerifiedByteCount =
          context.contextTotalBytes := by
  rw [verifyProofWithBudget]
  simp only
  split
  · exact ⟨_, rfl, rfl⟩
  split
  · exact ⟨_, rfl, rfl⟩
  split
  · exact ⟨_, rfl, rfl⟩
  split
  · exact ⟨_, rfl, rfl⟩
  · exact ⟨_, rfl, rfl⟩

end Durable7.Hamt
