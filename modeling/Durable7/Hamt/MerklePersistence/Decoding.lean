import Durable7.Hamt.MerklePersistence.Storage
import Durable7.Hamt.MerkleSearchTree.Validation

/-!
# Decoding untrusted blocks

The decoder reads a block by offsets and rejects it unless its bytes are exactly
the canonical encoding of what was read.  `decodeBlock_eq_ok` separates the two
concerns of a successful decode: the block is well formed, and the context could
be charged for it.
-/

namespace Durable7.Hamt

open Foundation List Except
open Int32 hiding not_not

/-! ## Reading fields -/

def takeBytes (source : ByteString) (offset count : Nat) (digest : Option MerkleDigest) :
    Except MerkleVerificationError (ByteString × Nat) :=
  if offset + count > source.length then
    .error ⟨.MalformedBlock, "a serialized Merkle field is truncated", digest⟩
  else .ok ((source.drop offset).take count, offset + count)

def byteAt (bytes : ByteString) (index : Nat) : UInt8 := bytes.getD index 0

/-- A big-endian 32-bit word, converted to `Int32`. -/
def decodeInt32 (bytes : ByteString) : Int32 :=
  (UInt32.ofNat ((byteAt bytes 0).toNat * 0x1000000 +
    (byteAt bytes 1).toNat * 0x10000 + (byteAt bytes 2).toNat * 0x100 +
    (byteAt bytes 3).toNat)).toInt32

def readInt32 (source : ByteString) (offset : Nat) (digest : Option MerkleDigest) :
    Except MerkleVerificationError (Int32 × Nat) := do
  let (bytes, next) ← takeBytes source offset 4 digest
  .ok (decodeInt32 bytes, next)

def readPositiveInt32 (source : ByteString) (offset : Nat)
    (digest : MerkleDigest) (field : String) :
    Except MerkleVerificationError (Nat × Nat) := do
  let (value, next) ← readInt32 source offset (some digest)
  rejectIf (value ≤ 0) (malformed digest ("a Merkle block has an invalid " ++ field ++ " count"))
  .ok (value.toNatClampNeg, next)

def readLengthPrefixed (source : ByteString) (offset : Nat) (digest : MerkleDigest) :
    Except MerkleVerificationError (ByteString × Nat) := do
  let (count, next) ← readInt32 source offset (some digest)
  rejectIf (count < 0) (malformed digest "a length-prefixed Merkle field has a negative length")
  takeBytes source next count.toNatClampNeg (some digest)

theorem takeBytes_eq_ok {source piece : ByteString} {offset count next : Nat}
    {digest : Option MerkleDigest} :
    takeBytes source offset count digest = .ok (piece, next) ↔
      ReadsAt source offset piece next ∧ piece.length = count := by
  unfold takeBytes
  split
  · rename_i hlong
    simp only [reduceCtorEq, false_iff, not_and]
    rintro hreads rfl
    have h₁ := hreads.next_eq
    have h₂ := hreads.next_le
    omega
  · rename_i hfits
    have hreads := ReadsAt.take_drop (Nat.not_lt.mp hfits)
    have hlength : ((source.drop offset).take count).length = count := by
      rw [length_take, length_drop]
      omega
    constructor
    · intro h
      cases h
      exact ⟨hreads, hlength⟩
    · rintro ⟨hpiece, hcount⟩
      obtain ⟨rfl, rfl⟩ := hreads.unique hpiece (by rw [hlength, hcount])
      rfl

theorem decodeInt32_int32BigEndian (value : Int32) :
    decodeInt32 (int32BigEndian value) = value := by
  have hword : UInt32.ofNat
      ((byteAt (word32BigEndian value.toUInt32) 0).toNat * 0x1000000 +
        (byteAt (word32BigEndian value.toUInt32) 1).toNat * 0x10000 +
        (byteAt (word32BigEndian value.toUInt32) 2).toNat * 0x100 +
        (byteAt (word32BigEndian value.toUInt32) 3).toNat) =
      value.toUInt32 := by
    rw [← UInt32.toNat_inj]
    have hlt := value.toUInt32.toNat_lt
    simp only [byteAt, word32BigEndian, getD_cons_zero,
      getD_cons_succ, UInt32.toNat_toUInt8, UInt32.toNat_shiftRight,
      UInt32.toNat_ofNat', Nat.shiftRight_eq_div_pow, UInt32.reduceToNat,
      Nat.reduceMod, Nat.reducePow]
    omega
  rw [decodeInt32, int32BigEndian, hword]
  rfl

variable {bytes : ByteString}

theorem int32BigEndian_decodeInt32 (h : bytes.length = 4) :
    int32BigEndian (decodeInt32 bytes) = bytes := by
  match bytes, h with
  | [a, b, c, d], _ =>
      have ha := a.toNat_lt
      have hb := b.toNat_lt
      have hc := c.toNat_lt
      have hd := d.toNat_lt
      have hword : (decodeInt32 [a, b, c, d]).toUInt32 =
          UInt32.ofNat (a.toNat * 0x1000000 + b.toNat * 0x10000 + c.toNat * 0x100 + d.toNat) := rfl
      rw [int32BigEndian, hword]
      simp only [word32BigEndian, List.cons.injEq, and_true, ← UInt8.toNat_inj,
        UInt32.toNat_toUInt8, UInt32.toNat_shiftRight, UInt32.toNat_ofNat',
        Nat.shiftRight_eq_div_pow, UInt32.reduceToNat, Nat.reduceMod, Nat.reducePow]
      omega

variable {next offset : Nat}

theorem readInt32_eq_ok {source : ByteString} {digest : Option MerkleDigest} {value : Int32} :
    readInt32 source offset digest = .ok (value, next) ↔
      ReadsAt source offset (int32BigEndian value) next := by
  simp only [readInt32, bind_eq_ok, Prod.exists, takeBytes_eq_ok, ok.injEq, Prod.mk.injEq]
  constructor
  · rintro ⟨bytes, offset', ⟨hreads, hlength⟩, rfl, rfl⟩
    rw [int32BigEndian_decodeInt32 hlength]
    exact hreads
  · intro hreads
    exact ⟨_, _, ⟨hreads, int32BigEndian_length value⟩, decodeInt32_int32BigEndian value, rfl⟩

private theorem ofNat_toNatClampNeg {value : Int32} (h : ¬ value < 0) :
    ofNat value.toNatClampNeg = value := by
  rw [lt_iff_toInt_lt] at h
  apply toInt_inj.mp
  rw [toInt_ofNat_of_lt value.toNatClampNeg_lt]
  rw [← toNat_toInt]
  simp at h
  omega

theorem toNatClampNeg_ofNat {n : Nat} (h : n ≤ maxInt32) :
    (ofNat n).toNatClampNeg = n ∧ ¬ ofNat n < 0 := by
  have hlt : n < 2 ^ 31 := by
    unfold maxInt32 at h
    omega
  refine ⟨toNatClampNeg_ofNat_of_lt hlt, ?_⟩
  rw [lt_iff_toInt_lt, toInt_ofNat_of_lt hlt]
  simp

variable {digest : MerkleDigest} {count : Nat}

theorem readPositiveInt32_eq_ok {source : ByteString} {field : String} :
    readPositiveInt32 source offset digest field = .ok (count, next) ↔
      ReadsAt source offset (lengthBigEndian count) next ∧ 0 < count ∧ count ≤ maxInt32 := by
  simp only [readPositiveInt32, bind_eq_ok, Prod.exists, readInt32_eq_ok, rejectIf_eq_ok,
    exists_const, ok.injEq, Prod.mk.injEq]
  constructor
  · rintro ⟨value, offset', hreads, hpositive, rfl, rfl⟩
    have hnonneg : ¬ value < 0 := fun hlt => hpositive (Int32.le_of_lt hlt)
    refine ⟨?_, ?_, ?_⟩
    · rw [lengthBigEndian, ofNat_toNatClampNeg hnonneg]
      exact hreads
    · rw [le_iff_toInt_le] at hpositive
      rw [← toNat_toInt]
      simp at hpositive
      omega
    · have := value.toNatClampNeg_lt
      unfold maxInt32
      omega
  · rintro ⟨hreads, hpos, hle⟩
    refine ⟨_, _, hreads, ?_, (toNatClampNeg_ofNat hle).1, rfl⟩
    rw [le_iff_toInt_le, toInt_ofNat_of_lt (by
      unfold maxInt32 at hle
      omega)]
    simp
    omega

theorem readLengthPrefixed_eq_ok {source piece : ByteString} :
    readLengthPrefixed source offset digest = .ok (piece, next) ↔
      ReadsAt source offset (lengthBigEndian piece.length ++ piece) next ∧
        piece.length ≤ maxInt32 := by
  simp only [readLengthPrefixed, bind_eq_ok, Prod.exists, readInt32_eq_ok, rejectIf_eq_ok,
    exists_const, takeBytes_eq_ok]
  constructor
  · rintro ⟨count, offset', hcount, hnonneg, hpiece, hlength⟩
    refine ⟨?_, ?_⟩
    · rw [lengthBigEndian, hlength, ofNat_toNatClampNeg hnonneg]
      exact hcount.append hpiece
    · have := count.toNatClampNeg_lt
      unfold maxInt32
      omega
  · rintro ⟨hreads, hle⟩
    obtain ⟨hcount, hpiece⟩ := hreads.split
    obtain ⟨hclamp, hnonneg⟩ := toNatClampNeg_ofNat hle
    exact ⟨_, _, hcount, hnonneg, hpiece, hclamp.symm⟩

/-! ## Decoded blocks -/

structure DecodedEntry (k v : Type) where
  decodedKey : k
  decodedValue : v
  decodedKeyBytes : ByteString
  decodedValueBytes : ByteString

structure DecodedBlock (k v : Type) where
  decodedBlockSource : MerkleBlock
  decodedLevel : UInt8
  decodedSubtreeCount : Nat
  decodedEntries : List (DecodedEntry k v)
  decodedChildDigests : List MerkleDigest

variable {k v : Type}

namespace DecodedEntry

def encoded (entry : DecodedEntry k v) : ByteString × ByteString :=
  (entry.decodedKeyBytes, entry.decodedValueBytes)

end DecodedEntry

def codecDecode {α : Type} (kind : MerkleVerificationFailureKind)
    (message : String) (digest : MerkleDigest) (codec : MerkleCodec α)
    (bytes : ByteString) : Except MerkleVerificationError α :=
  (codec.decodeMerkleValue bytes).mapError fun problem =>
    ⟨kind, message ++ ": " ++ showMerkleCodecError problem false, some digest⟩

def codecEncode {α : Type} (kind : MerkleVerificationFailureKind)
    (message : String) (digest : MerkleDigest) (codec : MerkleCodec α)
    (value : α) : Except MerkleVerificationError ByteString :=
  (codec.encodeMerkleValue value).mapError fun problem =>
    ⟨kind, message ++ ": " ++ showMerkleCodecError problem false, some digest⟩

/-- The level of an entry, from the bytes of its key. -/
def keyLevel (policy : MerkleSearchTreePolicy k v) (keyBytes : ByteString) : UInt8 :=
  merkleLevel (hashMerkleKeyBytes policy keyBytes)

/-- `result` holds the entries read so far, the last one first. -/
def decodeEntries (policy : MerkleSearchTreePolicy k v) (digest : MerkleDigest)
    (level : UInt8) (count : Nat) (bytes : ByteString) (offset : Nat)
    (result : List (DecodedEntry k v)) :
    Except MerkleVerificationError (List (DecodedEntry k v) × Nat) :=
  match count with
  | 0 => .ok (result.reverse, offset)
  | count + 1 => do
      let (keyBytes, offset1) ← readLengthPrefixed bytes offset digest
      let (valueBytes, offset2) ← readLengthPrefixed bytes offset1 digest
      let key ← codecDecode .MalformedBlock
        "a key codec rejected serialized bytes" digest policy.merkleKeyCodec
        keyBytes
      let value ← codecDecode .MalformedBlock
        "a value codec rejected serialized bytes" digest
        policy.merkleValueCodec valueBytes
      let canonicalKey ← codecEncode .NonCanonicalBlock
        "a decoded key could not be re-encoded" digest policy.merkleKeyCodec key
      let canonicalValue ← codecEncode .NonCanonicalBlock
        "a decoded value could not be re-encoded" digest
        policy.merkleValueCodec value
      rejectIf (canonicalKey ≠ keyBytes ∨ canonicalValue ≠ valueBytes)
        ⟨.NonCanonicalBlock, "a decoded entry does not round-trip to its exact bytes", some digest⟩
      rejectIf (keyLevel policy keyBytes ≠ level) ⟨.NonCanonicalBlock,
        "an entry is stored at a level other than its hash-derived level",
        some digest⟩
      rejectIf (∃ previous ∈ result.head?, policy.compareMerkleKeys previous.decodedKey key ≠ .lt)
        ⟨.NonCanonicalBlock, "Merkle block entries are not strictly comparer-ordered", some digest⟩
      decodeEntries policy digest level count bytes offset2
        (⟨key, value, keyBytes, valueBytes⟩ :: result)

def readDigests (count : Nat) (bytes : ByteString) (offset : Nat)
    (digest : MerkleDigest) (result : List MerkleDigest) :
    Except MerkleVerificationError (List MerkleDigest × Nat) :=
  match count with
  | 0 => .ok (result.reverse, offset)
  | count + 1 => do
      let (raw, next) ← takeBytes bytes offset 32 (some digest)
      let parsed ← (parseDigestBytes raw).mapError fun _ =>
        malformed digest "a child digest is malformed"
      readDigests count bytes next digest (parsed :: result)

def encodeRawBlock (policy : MerkleSearchTreePolicy k v) (level : UInt8)
    (subtreeCount : Nat) (entries : List (DecodedEntry k v))
    (children : List MerkleDigest) : ByteString :=
  blockBytes policy.merkleDomainDigest level subtreeCount
    (entries.map DecodedEntry.encoded) children

def decodeBlock {budget : MerkleVerificationBudget}
    (policy : MerkleSearchTreePolicy k v) (block : MerkleBlock) (depth : Nat)
    (context0 : VerificationContext budget) :
    Except MerkleVerificationError (DecodedBlock k v × VerificationContext budget) := do
  let (firstVisit, context1) ← accountBlock depth block context0
  let digest := block.merkleBlockDigest
  let bytes := block.merkleBlockBytes
  rejectIf (hashBytes bytes ≠ digest) ⟨.DigestMismatch,
    "a block's bytes do not match its claimed digest", some digest⟩
  rejectIf (bytes.length < 78) (malformed digest
    "a Merkle block is shorter than the minimum encoding")
  let (magic, offset1) ← takeBytes bytes 0 4 (some digest)
  rejectIf (magic ≠ blockMagic) (malformed digest "a Merkle block has the wrong magic")
  let (tag, offset2) ← takeBytes bytes offset1 1 (some digest)
  rejectIf (tag ≠ [1]) (malformed digest "a Merkle block has an unsupported tag")
  let (domainBytes, offset3) ← takeBytes bytes offset2 32 (some digest)
  let domain ← (parseDigestBytes domainBytes).mapError fun _ =>
    malformed digest "a Merkle block has a malformed domain digest"
  rejectIf (domain ≠ policy.merkleDomainDigest) ⟨.DomainMismatch,
    "a Merkle block belongs to another policy domain", some digest⟩
  let (levelBytes, offset4) ← takeBytes bytes offset3 1 (some digest)
  let level := byteAt levelBytes 0
  rejectIf (level > 64) (malformed digest "a Merkle block layer exceeds the SHA-256 nibble range")
  let (subtreeCount, offset5) ← readPositiveInt32 bytes offset4 digest "subtree"
  let (entryCount, offset6) ← readPositiveInt32 bytes offset5 digest "entry"
  rejectIf (subtreeCount < entryCount) (malformed digest
    "a Merkle block has more entries than its declared subtree")
  rejectIf (entryCount ≥ budget.maxChildReferencesPerBlock)
    (limit "a Merkle block exceeds the child-reference budget" digest)
  rejectIf (46 + entryCount * (8 + 32) + 32 > bytes.length) (malformed digest
    "a Merkle block cannot contain its declared entries and children")
  let context2 ← (if firstVisit then accountEntries entryCount digest context1
    else .ok context1)
  let (entries, offset7) ← decodeEntries policy digest level entryCount bytes offset6 []
  let (children, offset8) ← readDigests (entryCount + 1) bytes offset7 digest []
  rejectIf (offset8 ≠ bytes.length) ⟨.NonCanonicalBlock,
    "a Merkle block has trailing bytes", some digest⟩
  rejectIf (encodeRawBlock policy level subtreeCount entries children ≠ bytes)
    ⟨.NonCanonicalBlock, "a Merkle block is not uniquely canonical", some digest⟩
  .ok (⟨block, level, subtreeCount, entries, children⟩, context2)

/-! ## What a successful decode means -/

variable {policy : MerkleSearchTreePolicy k v}

structure ValidDecodedEntry (policy : MerkleSearchTreePolicy k v)
    (level : UInt8) (entry : DecodedEntry k v) : Prop where
  decodeKey : policy.merkleKeyCodec.decodeMerkleValue entry.decodedKeyBytes = .ok entry.decodedKey
  decodeValue : policy.merkleValueCodec.decodeMerkleValue
    entry.decodedValueBytes = .ok entry.decodedValue
  encodeKey : policy.merkleKeyCodec.encodeMerkleValue entry.decodedKey = .ok entry.decodedKeyBytes
  encodeValue : policy.merkleValueCodec.encodeMerkleValue entry.decodedValue =
    .ok entry.decodedValueBytes
  key_le : entry.decodedKeyBytes.length ≤ maxInt32
  value_le : entry.decodedValueBytes.length ≤ maxInt32
  level_eq : keyLevel policy entry.decodedKeyBytes = level

def KeyBefore (policy : MerkleSearchTreePolicy k v) (before after : DecodedEntry k v) : Prop :=
  policy.compareMerkleKeys before.decodedKey after.decodedKey = .lt

structure WellFormedBlock (policy : MerkleSearchTreePolicy k v)
    (decoded : DecodedBlock k v) : Prop where
  digest_eq : hashBytes decoded.decodedBlockSource.merkleBlockBytes =
    decoded.decodedBlockSource.merkleBlockDigest
  bytes_eq : decoded.decodedBlockSource.merkleBlockBytes =
    encodeRawBlock policy decoded.decodedLevel decoded.decodedSubtreeCount
      decoded.decodedEntries decoded.decodedChildDigests
  level_le : decoded.decodedLevel ≤ 64
  nonempty : 0 < decoded.decodedEntries.length
  entries_le : decoded.decodedEntries.length ≤ decoded.decodedSubtreeCount
  subtree_le : decoded.decodedSubtreeCount ≤ maxInt32
  arity : decoded.decodedChildDigests.length = decoded.decodedEntries.length + 1
  valid : ∀ entry ∈ decoded.decodedEntries, ValidDecodedEntry policy decoded.decodedLevel entry
  chain : decoded.decodedEntries.IsChain (KeyBefore policy)

variable {kind : MerkleVerificationFailureKind}

private theorem codecDecode_eq_ok {α : Type}
    {message : String} {codec : MerkleCodec α} {value : α} :
    codecDecode kind message digest codec bytes = .ok value ↔
      codec.decodeMerkleValue bytes = .ok value :=
  mapError_eq_ok

private theorem codecEncode_eq_ok {α : Type}
    {message : String} {codec : MerkleCodec α} {value : α} :
    codecEncode kind message digest codec value = .ok bytes ↔
      codec.encodeMerkleValue value = .ok bytes :=
  mapError_eq_ok

section

variable (hoffset : offset ≤ bytes.length)
include hoffset

private theorem decodeEntries_acc_eq_ok {level : UInt8} {result entries : List (DecodedEntry k v)} :
    decodeEntries policy digest level count bytes offset result = .ok (entries, next) ↔
      ∃ new, entries = result.reverse ++ new ∧ new.length = count ∧
        ReadsAt bytes offset (new.flatMap fun entry => encodeEntryBytes entry.encoded) next ∧
        (∀ entry ∈ new, ValidDecodedEntry policy level entry) ∧
        (result.head?.toList ++ new).IsChain (KeyBefore policy) := by
  induction count generalizing offset result with
  | zero =>
      simp only [decodeEntries, ok.injEq, Prod.mk.injEq, length_eq_zero_iff]
      constructor
      · rintro ⟨rfl, rfl⟩
        refine ⟨[], by simp, rfl, ReadsAt.nil hoffset, by simp, ?_⟩
        cases result <;> simp
      · rintro ⟨new, rfl, rfl, hreads, -⟩
        exact ⟨by simp, by simpa using hreads.next_eq.symm⟩
  | succ count ih =>
      simp only [decodeEntries, bind_eq_ok, Prod.exists, readLengthPrefixed_eq_ok,
        codecDecode_eq_ok, codecEncode_eq_ok, rejectIf_eq_ok, exists_const, ne_eq, not_or, not_not]
      constructor
      · rintro ⟨keyBytes, offset1, ⟨hkeyReads, hkeyLe⟩, valueBytes, offset2,
          ⟨hvalueReads, hvalueLe⟩, key, hkey, value, hvalue, canonicalKey, hcanonicalKey,
          canonicalValue, hcanonicalValue, ⟨rfl, rfl⟩, hlevel, hordered, hrest⟩
        obtain ⟨new, rfl, hlength, hreads, hvalid, hchain⟩ := (ih hvalueReads.next_le).mp hrest
        refine ⟨⟨key, value, canonicalKey, canonicalValue⟩ :: new, by simp, by simp [hlength], ?_,
          ?_, ?_⟩
        · have hall := (hkeyReads.append hvalueReads).append hreads
          simpa [encodeEntryBytes, DecodedEntry.encoded] using hall
        · exact forall_mem_cons.mpr
            ⟨⟨hkey, hvalue, hcanonicalKey, hcanonicalValue, hkeyLe, hvalueLe, hlevel⟩, hvalid⟩
        · cases result with
          | nil => simpa using hchain
          | cons previous result =>
              have hlt : policy.compareMerkleKeys previous.decodedKey key =
                  .lt := by simpa using hordered
              simp only [List.head?_cons, Option.toList_some,
                singleton_append, isChain_cons_cons] at hchain ⊢
              exact ⟨hlt, hchain⟩
      · rintro ⟨new, rfl, hlength, hreads, hvalid, hchain⟩
        obtain ⟨entry, new, rfl⟩ := exists_cons_of_length_eq_add_one hlength
        obtain ⟨hentry, hrest⟩ := forall_mem_cons.mp hvalid
        rw [flatMap_cons, encodeEntryBytes, DecodedEntry.encoded, append_assoc (lengthBigEndian
          entry.decodedKeyBytes.length ++ _)] at hreads
        obtain ⟨hfirst, hreads⟩ := hreads.split
        obtain ⟨hkeyReads, hvalueReads⟩ := hfirst.split
        refine ⟨_, _, ⟨hkeyReads, hentry.key_le⟩, _, _, ⟨hvalueReads, hentry.value_le⟩, _,
          hentry.decodeKey, _, hentry.decodeValue, _, hentry.encodeKey, _, hentry.encodeValue,
          ⟨rfl, rfl⟩, hentry.level_eq, ?_, (ih hreads.offset_le).mpr ⟨new, by simp,
            by simpa using hlength, hreads, hrest, ?_⟩⟩
        · cases result with
          | nil => simp
          | cons previous result =>
              simp only [List.head?_cons, Option.toList_some,
                singleton_append, isChain_cons_cons] at hchain
              simpa [KeyBefore] using hchain.1
        · cases result with
          | nil => simpa using hchain
          | cons previous result =>
              simp only [List.head?_cons, Option.toList_some,
                singleton_append, isChain_cons_cons] at hchain ⊢
              exact hchain.2

theorem decodeEntries_eq_ok {level : UInt8} {entries : List (DecodedEntry k v)} :
    decodeEntries policy digest level count bytes offset [] = .ok (entries, next) ↔
      entries.length = count ∧
        ReadsAt bytes offset (entries.flatMap fun entry => encodeEntryBytes entry.encoded) next ∧
        (∀ entry ∈ entries, ValidDecodedEntry policy level entry) ∧
        entries.IsChain (KeyBefore policy) := by
  rw [decodeEntries_acc_eq_ok hoffset]
  simp

private theorem readDigests_acc_eq_ok {result digests : List MerkleDigest} :
    readDigests count bytes offset digest result = .ok (digests, next) ↔
      ∃ new, digests = result.reverse ++ new ∧ new.length = count ∧
        ReadsAt bytes offset (new.flatMap MerkleDigest.digestBytes) next := by
  induction count generalizing offset result with
  | zero =>
      simp only [readDigests, ok.injEq, Prod.mk.injEq, length_eq_zero_iff]
      constructor
      · rintro ⟨rfl, rfl⟩
        exact ⟨[], by simp, rfl, ReadsAt.nil hoffset⟩
      · rintro ⟨new, rfl, rfl, hreads⟩
        exact ⟨by simp, by simpa using hreads.next_eq.symm⟩
  | succ count ih =>
      simp only [readDigests, bind_eq_ok, Prod.exists, takeBytes_eq_ok, mapError_eq_ok,
        parseDigestBytes_eq_ok]
      constructor
      · rintro ⟨_, offset', ⟨hraw, -⟩, parsed, rfl, hrest⟩
        obtain ⟨new, rfl, hlength, hreads⟩ := (ih hraw.next_le).mp hrest
        refine ⟨parsed :: new, by simp, by simp [hlength], ?_⟩
        rw [flatMap_cons]
        exact hraw.append hreads
      · rintro ⟨new, rfl, hlength, hreads⟩
        obtain ⟨parsed, new, rfl⟩ := exists_cons_of_length_eq_add_one hlength
        rw [flatMap_cons] at hreads
        obtain ⟨hraw, hreads⟩ := hreads.split
        exact ⟨_, _, ⟨hraw, parsed.length_eq⟩, parsed, rfl, (ih hreads.offset_le).mpr
          ⟨new, by simp, by simpa using hlength, hreads⟩⟩

theorem readDigests_eq_ok {digests : List MerkleDigest} :
    readDigests count bytes offset digest [] = .ok (digests, next) ↔
      digests.length = count ∧
        ReadsAt bytes offset (digests.flatMap MerkleDigest.digestBytes) next := by
  rw [readDigests_acc_eq_ok hoffset]
  simp

end

section Charging

variable {budget : MerkleVerificationBudget}

/-- What one decode charges, its content aside. -/
def chargeBlock (block : MerkleBlock) (depth entryCount : Nat)
    (context0 : VerificationContext budget) :
    Except MerkleVerificationError (VerificationContext budget) := do
  let (firstVisit, context1) ← accountBlock depth block context0
  rejectIf (entryCount ≥ budget.maxChildReferencesPerBlock)
    (limit "a Merkle block exceeds the child-reference budget"
      block.merkleBlockDigest)
  if firstVisit then accountEntries entryCount block.merkleBlockDigest context1
  else .ok context1

/-- Bytes of one encoded entry. -/
def entrySize (entry : ByteString × ByteString) : Nat := 8 + entry.1.length + entry.2.length

theorem blockBytes_length (domain : MerkleDigest) (level : UInt8)
    (subtreeCount : Nat) (entries : List (ByteString × ByteString)) (children : List MerkleDigest) :
    (blockBytes domain level subtreeCount entries children).length =
      46 + (entries.map entrySize).sum + 32 * children.length := by
  have hentries : (entries.flatMap encodeEntryBytes).length = (entries.map entrySize).sum := by
    rw [length_flatMap]
    congr 1
    refine map_congr_left fun entry _ => ?_
    simp only [encodeEntryBytes, length_append, lengthBigEndian_length, entrySize]
    omega
  have hchildren : (children.flatMap MerkleDigest.digestBytes).length = 32 * children.length := by
    induction children with
    | nil => simp
    | cons child children ih =>
        simp only [flatMap_cons, length_append, length_cons, child.length_eq, ih]
        omega
  simp only [blockBytes, length_append, hentries, hchildren,
    domain.length_eq, lengthBigEndian_length, length_singleton,
    show blockMagic.length = 4 from rfl]

theorem eight_mul_le_entrySize (entries : List (ByteString × ByteString)) :
    8 * entries.length ≤ (entries.map entrySize).sum := by
  induction entries with
  | nil => simp
  | cons entry entries ih =>
      rw [length_cons, map_cons, sum_cons, entrySize]
      omega

theorem decodeBlock_eq_ok {block : MerkleBlock} {depth : Nat}
    {context0 context : VerificationContext budget} {decoded : DecodedBlock k v} :
    decodeBlock policy block depth context0 = .ok (decoded, context) ↔
      decoded.decodedBlockSource = block ∧ WellFormedBlock policy decoded ∧
        chargeBlock block depth decoded.decodedEntries.length context0 =
          .ok context := by
  simp only [decodeBlock, chargeBlock, bind_eq_ok, Prod.exists, rejectIf_eq_ok, exists_const,
    takeBytes_eq_ok, mapError_eq_ok, parseDigestBytes_eq_ok, readPositiveInt32_eq_ok,
    ok.injEq, Prod.mk.injEq, ne_eq, not_not]
  constructor
  · rintro ⟨firstVisit, context1, haccount, hdigest, -, magic, offset1, -, -, tag, offset2, -, -,
      domainBytes, offset3, -, domain, -, -, levelBytes, offset4, -, hlevel, subtreeCount, offset5,
      ⟨-, -, hsubtreeLe⟩, entryCount, offset6, ⟨hcountReads, hpos, -⟩, hentriesLe, hchildLimit, -,
      context2, hcontext, entries, offset7, hentries, children, offset8, hchildren, -, hcanonical,
      rfl, rfl⟩
    obtain ⟨rfl, hentriesReads, hvalid, hchain⟩ :=
      (decodeEntries_eq_ok hcountReads.next_le).mp hentries
    obtain ⟨harity, -⟩ := (readDigests_eq_ok hentriesReads.next_le).mp hchildren
    exact ⟨rfl, ⟨hdigest, hcanonical.symm, UInt8.not_lt.mp hlevel, hpos, Nat.not_lt.mp hentriesLe,
      hsubtreeLe, harity, hvalid, hchain⟩, firstVisit, context1, haccount, hchildLimit, hcontext⟩
  · rintro ⟨rfl, hblock, firstVisit, context1, haccount, hchildLimit, hcontext⟩
    have hlength := blockBytes_length policy.merkleDomainDigest
      decoded.decodedLevel decoded.decodedSubtreeCount
      (decoded.decodedEntries.map DecodedEntry.encoded)
      decoded.decodedChildDigests
    have hbytes := hblock.bytes_eq
    rw [encodeRawBlock] at hbytes
    have hsize := eight_mul_le_entrySize (decoded.decodedEntries.map DecodedEntry.encoded)
    rw [← hbytes, hblock.arity] at hlength
    rw [length_map] at hsize
    have hwhole := ReadsAt.whole hbytes
    rw [blockBytes, length_map, flatMap_map] at hwhole
    obtain ⟨hwhole, hchildren⟩ := hwhole.split
    obtain ⟨hwhole, hentries⟩ := hwhole.split
    obtain ⟨hwhole, hcount⟩ := hwhole.split
    obtain ⟨hwhole, hsubtree⟩ := hwhole.split
    obtain ⟨hwhole, hlevel⟩ := hwhole.split
    obtain ⟨hwhole, hdomain⟩ := hwhole.split
    obtain ⟨hmagic, htag⟩ := hwhole.split
    have hpos := hblock.nonempty
    have hle := hblock.entries_le
    have hsubtreeLe := hblock.subtree_le
    exact ⟨firstVisit, context1, haccount, hblock.digest_eq, by omega, _, _, ⟨hmagic, rfl⟩, rfl,
      _, _, ⟨htag, rfl⟩, rfl, _, _, ⟨hdomain, policy.merkleDomainDigest.length_eq⟩, _, rfl, rfl,
      _, _, ⟨hlevel, rfl⟩, UInt8.not_lt.mpr hblock.level_le,
      _, _, ⟨hsubtree, by omega, hsubtreeLe⟩, _, _, ⟨hcount, hpos, by omega⟩, by omega,
      hchildLimit, by omega, context, hcontext,
      _, _, (decodeEntries_eq_ok hentries.offset_le).mpr
      ⟨rfl, hentries, hblock.valid, hblock.chain⟩,
      _, _, (readDigests_eq_ok hchildren.offset_le).mpr ⟨hblock.arity, hchildren⟩, rfl,
      hblock.bytes_eq.symm, rfl, rfl⟩

end Charging

end Durable7.Hamt
