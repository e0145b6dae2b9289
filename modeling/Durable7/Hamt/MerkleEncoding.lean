import Durable7.Foundation.Outcome
import Durable7.Hamt.Sha256

/-!
# Canonical codecs, digests, and policy framing

A Haskell character is a code point and may be a surrogate, so a source string
that is hashed or validated is a list of code points.  Error texts are ordinary
strings: no operation inspects them.
-/

namespace Durable7.Hamt

open Foundation

section

open UInt8

/-! ## Digests -/

/-- A 256-bit content digest; every constructor checks or produces 32 bytes. -/
structure MerkleDigest where
  digestBytes : ByteString
  length_eq : digestBytes.length = 32
  deriving DecidableEq

def hashBytes (bytes : ByteString) : MerkleDigest := ⟨sha256 bytes, sha256_length bytes⟩

def parseDigestBytes (bytes : ByteString) : Except String MerkleDigest :=
  if h : bytes.length = 32 then .ok ⟨bytes, h⟩
  else
    .error ("a Merkle digest must contain exactly 32 bytes; received " ++
      toString bytes.length)

theorem parseDigestBytes_eq_ok {bytes : ByteString} {digest : MerkleDigest} :
    parseDigestBytes bytes = .ok digest ↔ bytes = digest.digestBytes := by
  unfold parseDigestBytes
  split
  · rename_i h
    simp only [Except.ok.injEq]
    exact ⟨fun heq => heq ▸ rfl, fun heq => by cases digest; simp_all⟩
  · rename_i h
    simp only [reduceCtorEq, false_iff]
    rintro rfl
    exact h digest.length_eq

def int32BigEndian (value : Int32) : ByteString := word32BigEndian value.toUInt32

@[simp] theorem int32BigEndian_length (value : Int32) :
    (int32BigEndian value).length = 4 := rfl

/-- `fromIntegral` from a length to `Int32`, followed by its encoding. -/
def lengthBigEndian (length : Nat) : ByteString := int32BigEndian (Int32.ofNat length)

@[simp] theorem lengthBigEndian_length (length : Nat) :
    (lengthBigEndian length).length = 4 := rfl

def maxInt32 : Nat := 2 ^ 31 - 1

/-- The bytes that `hashFramed` hashes. -/
def framedBytes (tag : UInt8) (fields : List ByteString) : ByteString :=
  tag :: fields.flatMap fun bytes => lengthBigEndian bytes.length ++ bytes

def hashFramed (tag : UInt8) (fields : List ByteString) : MerkleDigest :=
  hashBytes (framedBytes tag fields)

/-- ASCII `"MST2"`. -/
def blockMagic : ByteString := [0x4d, 0x53, 0x54, 0x32]

/-- ASCII `"MSP2"`. -/
def proofMagic : ByteString := [0x4d, 0x53, 0x50, 0x32]

structure MerkleCodecError where
  merkleCodecErrorMessage : String
  deriving DecidableEq

abbrev CodePoint := Fin 0x110000

abbrev HaskellString := List CodePoint

def codePoint (character : Char) : CodePoint :=
  ⟨character.toNat, by
    have := character.valid
    simp only [UInt32.isValidChar, Nat.isValidChar] at this
    simp only [Char.toNat]
    omega⟩

structure MerkleCodec (α : Type) where
  merkleEncodingId : HaskellString
  encodeMerkleValue : α → Except MerkleCodecError ByteString
  decodeMerkleValue : ByteString → Except MerkleCodecError α

def nullableBytesMerkleCodec : MerkleCodec (Option ByteString) where
  merkleEncodingId := ['n', 'u', 'l', 'l', 'a', 'b', 'l', 'e', '-', 'b', 'y',
    't', 'e', 's', '-', 'v', '1'].map codePoint
  encodeMerkleValue
    | none => .ok [0]
    | some bytes => .ok (1 :: bytes)
  decodeMerkleValue
    | [] => .error ⟨"invalid nullable-bytes-v1 encoding: nullable tag is missing"⟩
    | tag :: payload =>
        if tag = 0 then
          if payload = [] then .ok none
          else .error ⟨"invalid nullable-bytes-v1 encoding: null has trailing bytes"⟩
        else if tag = 1 then .ok (some payload)
        else .error ⟨"invalid nullable-bytes-v1 encoding: nullable tag must be zero or one"⟩

/-! ## Policies -/

def emptyManifest (domain : MerkleDigest) : ByteString := blockMagic ++ [0] ++ domain.digestBytes

/--
Comparison, codecs, and SHA-256 domain of one map family.  The constructor is
not exported, so the empty digest is always the one of the domain's manifest.
-/
structure MerkleSearchTreePolicy (k v : Type) where
  merklePolicyId : HaskellString
  compareMerkleKeys : k → k → Ordering
  merkleKeyCodec : MerkleCodec k
  merkleValueCodec : MerkleCodec v
  merkleDomainDigest : MerkleDigest
  merkleEmptyDigest : MerkleDigest
  emptyDigest_eq : merkleEmptyDigest = hashBytes (emptyManifest merkleDomainDigest)

inductive MerklePolicyError where
  | EmptyMerklePolicyId
  | InvalidMerkleEncodingId (field : String) (encodingId : HaskellString)
  | InvalidMerklePolicyUtf8 (field : String)
  deriving DecidableEq

/-- `"mst-sha256-b16-v2"`. -/
def merkleAlgorithmId : HaskellString :=
  ['m', 's', 't', '-', 's', 'h', 'a', '2', '5', '6', '-', 'b', '1', '6', '-',
    'v', '2'].map codePoint

/-- Haskell's `isSpace`: the Latin-1 spaces and the Unicode space separators. -/
def isSpace (character : CodePoint) : Bool :=
  let value := character.val
  value == 0x20 || (0x9 ≤ value && value ≤ 0xd) || value == 0xa0 ||
    value == 0x1680 || (0x2000 ≤ value && value ≤ 0x200a) ||
    value == 0x202f || value == 0x205f || value == 0x3000

def isSurrogate (character : CodePoint) : Bool := 0xd800 ≤ character.val && character.val ≤ 0xdfff

def isAsciiDigit (character : CodePoint) : Bool := 0x30 ≤ character.val && character.val ≤ 0x39

def encodeUtf8CodePoint (character : CodePoint) : ByteString :=
  let value := character.val
  if value < 0x80 then [ofNat value]
  else if value < 0x800 then [ofNat (0xc0 + value / 0x40), ofNat (0x80 + value % 0x40)]
  else if value < 0x10000 then
    [ofNat (0xe0 + value / 0x1000),
      ofNat (0x80 + value / 0x40 % 0x40),
      ofNat (0x80 + value % 0x40)]
  else
    [ofNat (0xf0 + value / 0x40000),
      ofNat (0x80 + value / 0x1000 % 0x40),
      ofNat (0x80 + value / 0x40 % 0x40),
      ofNat (0x80 + value % 0x40)]

def encodeUtf8Strict (context : String) (text : HaskellString) :
    Except MerkleCodecError ByteString :=
  if text.any isSurrogate then
    .error ⟨context ++ ": surrogate code point is not a Unicode scalar value"⟩
  else .ok (text.flatMap encodeUtf8CodePoint)

def policyUtf8 (field : String) (text : HaskellString) : Except MerklePolicyError ByteString :=
  match encodeUtf8Strict ("invalid " ++ field) text with
  | .error _ => .error (.InvalidMerklePolicyUtf8 field)
  | .ok bytes => .ok bytes

def trimWhitespace (text : HaskellString) : HaskellString :=
  ((text.dropWhile isSpace).reverse.dropWhile isSpace).reverse

def lastVersionMarker (text : HaskellString) : Option Nat :=
  (List.range (text.length - 1)).foldl (fun current index =>
    if (text.drop index).take 2 = ['-', 'v'].map codePoint then some index
    else current) none

def validVersionSuffix (text : HaskellString) : Bool :=
  match lastVersionMarker text with
  | none => false
  | some index => 0 < index && index + 2 < text.length && (text.drop (index + 2)).all isAsciiDigit

def validateEncodingId (field : String) (encodingId : HaskellString) :
    Except MerklePolicyError Unit :=
  rejectIf (¬ (!encodingId.isEmpty && trimWhitespace encodingId == encodingId &&
    validVersionSuffix encodingId)) (.InvalidMerkleEncodingId field encodingId)

def makeMerkleSearchTreePolicy {k v : Type} (policyId : HaskellString)
    (comparer : k → k → Ordering) (keyCodec : MerkleCodec k) (valueCodec : MerkleCodec v) :
    Except MerklePolicyError (MerkleSearchTreePolicy k v) := do
  rejectIf (policyId.isEmpty || policyId.all isSpace) .EmptyMerklePolicyId
  validateEncodingId "key codec" keyCodec.merkleEncodingId
  validateEncodingId "value codec" valueCodec.merkleEncodingId
  let algorithmBytes ← policyUtf8 "algorithm id" merkleAlgorithmId
  let policyBytes ← policyUtf8 "policy id" policyId
  let keyIdBytes ← policyUtf8 "key codec id" keyCodec.merkleEncodingId
  let valueIdBytes ← policyUtf8 "value codec id" valueCodec.merkleEncodingId
  let domain := hashFramed 0x50 [algorithmBytes, policyBytes, keyIdBytes, valueIdBytes]
  .ok {
    merklePolicyId := policyId
    compareMerkleKeys := comparer
    merkleKeyCodec := keyCodec
    merkleValueCodec := valueCodec
    merkleDomainDigest := domain
    merkleEmptyDigest := hashBytes (emptyManifest domain)
    emptyDigest_eq := rfl }

section

variable {k v : Type}

def compatibleMerklePolicies (left right : MerkleSearchTreePolicy k v) : Bool :=
  left.merkleDomainDigest == right.merkleDomainDigest

def hashMerkleKeyBytes (policy : MerkleSearchTreePolicy k v)
    (keyBytes : ByteString) : MerkleDigest :=
  hashFramed 0x4b [policy.merkleDomainDigest.digestBytes, keyBytes]

end

def leadingZeroDigits (level : UInt8) : ByteString → UInt8
  | [] => level
  | byte :: rest =>
      if byte &&& 0xf0 ≠ 0 then level
      else if byte &&& 0x0f ≠ 0 then level + 1
      else leadingZeroDigits (level + 2) rest

def merkleLevel (digest : MerkleDigest) : UInt8 := leadingZeroDigits 0 digest.digestBytes

private theorem leadingZeroDigits_le (bytes : ByteString) :
    ∀ level : UInt8, level.toNat + 2 * bytes.length < 256 →
      (leadingZeroDigits level bytes).toNat ≤ level.toNat + 2 * bytes.length := by
  induction bytes with
  | nil =>
      intro level _
      simp [leadingZeroDigits]
  | cons byte rest ih =>
      intro level h
      simp only [List.length_cons] at h ⊢
      unfold leadingZeroDigits
      split
      · omega
      split
      · rw [UInt8.toNat_add]
        simp only [reduceToNat]
        omega
      · have hnext : (level + 2).toNat = level.toNat + 2 := by
          rw [UInt8.toNat_add]
          simp only [reduceToNat]
          omega
        have := ih (level + 2) (by omega)
        omega

theorem merkleLevel_le (digest : MerkleDigest) : merkleLevel digest ≤ 64 := by
  have h := leadingZeroDigits_le digest.digestBytes 0 (by simp [digest.length_eq])
  rw [digest.length_eq] at h
  rw [le_iff_toNat_le]
  simpa [merkleLevel] using h

/--
What a policy promises about its parameters: the comparer is a total order, it
identifies exactly the keys with equal encodings, and both codecs are total.
-/
structure LawfulPolicy {k v : Type} (policy : MerkleSearchTreePolicy k v) : Prop where
  compare_total : Std.TransCmp policy.compareMerkleKeys
  compare_eq_iff : ∀ left right,
    policy.compareMerkleKeys left right = .eq ↔
      policy.merkleKeyCodec.encodeMerkleValue left = policy.merkleKeyCodec.encodeMerkleValue right
  encodeKey_total : ∀ key, ∃ bytes, policy.merkleKeyCodec.encodeMerkleValue key = .ok bytes
  encodeValue_total : ∀ value, ∃ bytes, policy.merkleValueCodec.encodeMerkleValue value = .ok bytes

/-- A lawful policy whose decoders invert their encoders. -/
structure LawfulWirePolicy {k v : Type} (policy : MerkleSearchTreePolicy k v) :
    Prop extends LawfulPolicy policy where
  decodeKey_encode : ∀ key bytes,
    policy.merkleKeyCodec.encodeMerkleValue key = .ok bytes →
      policy.merkleKeyCodec.decodeMerkleValue bytes = .ok key
  decodeValue_encode : ∀ value bytes,
    policy.merkleValueCodec.encodeMerkleValue value = .ok bytes →
      policy.merkleValueCodec.decodeMerkleValue bytes = .ok value

end

/-!
## Nullable byte strings as keys and values

Any policy that uses the `nullable-bytes-v1` codec on both sides and compares
keys lexicographically is lawful.  The policy with the identifier `bytes` is the
concrete instance on which results are evaluated.
-/

theorem nullableBytes_encode_total (value : Option ByteString) :
    ∃ bytes, nullableBytesMerkleCodec.encodeMerkleValue value = .ok bytes := by
  cases value <;> exact ⟨_, rfl⟩

theorem nullableBytes_decode_encode {value : Option ByteString} {bytes : ByteString}
    (h : nullableBytesMerkleCodec.encodeMerkleValue value = .ok bytes) :
    nullableBytesMerkleCodec.decodeMerkleValue bytes = .ok value := by
  cases value <;> cases h <;> rfl

theorem nullableBytes_encode_injective {left right : Option ByteString}
    (h : nullableBytesMerkleCodec.encodeMerkleValue left =
      nullableBytesMerkleCodec.encodeMerkleValue right) : left = right := by
  obtain ⟨bytes, hbytes⟩ := nullableBytes_encode_total left
  have hleft := nullableBytes_decode_encode hbytes
  have hright := nullableBytes_decode_encode (h ▸ hbytes)
  rw [hleft] at hright
  exact Except.ok.inj hright

theorem lawful_of_nullableBytes
    {policy : MerkleSearchTreePolicy (Option ByteString) (Option ByteString)}
    (hcompare : policy.compareMerkleKeys = compare)
    (hkeys : policy.merkleKeyCodec = nullableBytesMerkleCodec)
    (hvalues : policy.merkleValueCodec = nullableBytesMerkleCodec) :
    LawfulWirePolicy policy where
  compare_total := by
    rw [hcompare]
    infer_instance
  compare_eq_iff left right := by
    rw [hcompare, hkeys, Std.LawfulEqOrd.compare_eq_iff_eq]
    exact ⟨fun h => h ▸ rfl, nullableBytes_encode_injective⟩
  encodeKey_total := by
    rw [hkeys]
    exact nullableBytes_encode_total
  encodeValue_total := by
    rw [hvalues]
    exact nullableBytes_encode_total
  decodeKey_encode _ _ := by
    rw [hkeys]
    exact nullableBytes_decode_encode
  decodeValue_encode _ _ := by
    rw [hvalues]
    exact nullableBytes_decode_encode

def bytesDomainDigest : MerkleDigest :=
  ⟨[248, 48, 121, 78, 50, 167, 79, 108, 235, 197, 35, 214, 127, 141, 21, 51,
    232, 123, 223, 26, 121, 30, 28, 228, 184, 107, 77, 209, 236, 165, 83, 185],
    rfl⟩

def bytesEmptyDigest : MerkleDigest :=
  ⟨[45, 211, 81, 22, 143, 216, 144, 70, 37, 205, 190, 97, 108, 134, 145, 186,
    26, 224, 65, 240, 121, 222, 198, 75, 159, 24, 192, 103, 73, 28, 234, 239],
    rfl⟩

def bytesPolicyId : HaskellString := ['b', 'y', 't', 'e', 's'].map codePoint

def bytesPolicy : MerkleSearchTreePolicy (Option ByteString) (Option ByteString) where
  merklePolicyId := bytesPolicyId
  compareMerkleKeys := compare
  merkleKeyCodec := nullableBytesMerkleCodec
  merkleValueCodec := nullableBytesMerkleCodec
  merkleDomainDigest := bytesDomainDigest
  merkleEmptyDigest := bytesEmptyDigest
  emptyDigest_eq := by decide +kernel

theorem bytesPolicy_lawful : LawfulWirePolicy bytesPolicy := lawful_of_nullableBytes rfl rfl rfl

theorem makeMerkleSearchTreePolicy_bytes :
    makeMerkleSearchTreePolicy bytesPolicyId compare nullableBytesMerkleCodec
      nullableBytesMerkleCodec = .ok bytesPolicy := by
  have hdomain : hashFramed 0x50
      [merkleAlgorithmId.flatMap encodeUtf8CodePoint,
        bytesPolicyId.flatMap encodeUtf8CodePoint,
        nullableBytesMerkleCodec.merkleEncodingId.flatMap encodeUtf8CodePoint,
        nullableBytesMerkleCodec.merkleEncodingId.flatMap encodeUtf8CodePoint] =
      bytesDomainDigest := by
    decide +kernel
  have hid : ∀ field, validateEncodingId field
      nullableBytesMerkleCodec.merkleEncodingId = .ok () := by
    intro field
    rw [validateEncodingId, rejectIf_eq_ok]
    decide +kernel
  have hutf8 : ∀ field text, text.any isSurrogate = false →
      policyUtf8 field text = .ok (text.flatMap encodeUtf8CodePoint) := by
    intro field text htext
    simp [policyUtf8, encodeUtf8Strict, htext]
  have hempty : hashBytes (emptyManifest bytesDomainDigest) =
      bytesEmptyDigest := bytesPolicy.emptyDigest_eq.symm
  rw [makeMerkleSearchTreePolicy, rejectIf_neg (by decide), hid, hid]
  simp only [except_ok_bind]
  rw [hutf8 _ merkleAlgorithmId (by decide +kernel),
    hutf8 _ bytesPolicyId (by decide +kernel),
    hutf8 "key codec id" _ (by decide +kernel),
    hutf8 "value codec id" _ (by decide +kernel)]
  simp only [except_ok_bind, hdomain, hempty]
  rfl

end Durable7.Hamt
