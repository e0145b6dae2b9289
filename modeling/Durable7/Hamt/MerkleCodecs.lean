import Durable7.Hamt.MerklePersistence.Decoding

/-!
# Canonical codecs and framing

Framed hashing feeds the hash a tag and its length-prefixed fields, from which both can be read
back.  Each built-in codec has one encoding for a value and accepts no other bytes.
-/

namespace Durable7.Hamt

open Foundation List Nat

theorem lengthBigEndian_inj {first second : Nat} (hfirst : first < 2 ^ 31)
    (hsecond : second < 2 ^ 31) (h : lengthBigEndian first = lengthBigEndian second) :
    first = second := by
  have hdecoded := congrArg decodeInt32 h
  simp only [lengthBigEndian, decodeInt32_int32BigEndian] at hdecoded
  rw [← (toNatClampNeg_ofNat (le_sub_one_of_lt hfirst)).1, hdecoded,
    (toNatClampNeg_ofNat (le_sub_one_of_lt hsecond)).1]

theorem fields_inj {first second : List ByteString}
    (hfirst : ∀ bytes ∈ first, bytes.length < 2 ^ 31)
    (hsecond : ∀ bytes ∈ second, bytes.length < 2 ^ 31)
    (h : (first.flatMap fun bytes => lengthBigEndian bytes.length ++ bytes) =
      second.flatMap fun bytes => lengthBigEndian bytes.length ++ bytes) : first = second := by
  induction first generalizing second with
  | nil =>
      cases second with
      | nil => rfl
      | cons bytes second => cases h
  | cons bytes first ih =>
      cases second with
      | nil => cases h
      | cons other second =>
          obtain ⟨hbytes, hrest⟩ := forall_mem_cons.mp hfirst
          obtain ⟨hother, hothers⟩ := forall_mem_cons.mp hsecond
          rw [flatMap_cons, flatMap_cons, append_assoc, append_assoc] at h
          -- The length read back says where the field ends.
          obtain ⟨hlength, h⟩ := append_inj h rfl
          obtain ⟨rfl, hfields⟩ := append_inj h (lengthBigEndian_inj hbytes hother hlength)
          rw [ih hrest hothers hfields]

/-- The values that a codec encodes, and that decoding and encoding are inverse, each where the
other succeeds. -/
structure MerkleCodec.Canonical {α : Type} (codec : MerkleCodec α) (encodable : α → Prop) :
    Prop where
  encodes : ∀ value, encodable value ↔ ∃ bytes, codec.encodeMerkleValue value = .ok bytes
  decode_encode : ∀ value bytes, codec.encodeMerkleValue value = .ok bytes →
    codec.decodeMerkleValue bytes = .ok value
  encode_decode : ∀ value bytes, codec.decodeMerkleValue bytes = .ok value →
    codec.encodeMerkleValue value = .ok bytes

/-! ### Integers -/

def int64BigEndian (value : Int64) : ByteString := word64BigEndian value.toUInt64

def decodeWord64 (bytes : ByteString) : UInt64 :=
  bytes.foldl (fun value byte => value <<< 8 ||| byte.toUInt64) 0

def int32MerkleCodec : MerkleCodec Int32 where
  merkleEncodingId := ['i', '3', '2', '-', 'b', 'e', '-', 'v', '1'].map codePoint
  encodeMerkleValue value := .ok (int32BigEndian value)
  decodeMerkleValue bytes :=
    if bytes.length = 4 then .ok (decodeWord32 bytes).toInt32
    else .error ⟨"invalid i32-be-v1 encoding: expected exactly four bytes"⟩

def int64MerkleCodec : MerkleCodec Int64 where
  merkleEncodingId := ['i', '6', '4', '-', 'b', 'e', '-', 'v', '1'].map codePoint
  encodeMerkleValue value := .ok (int64BigEndian value)
  decodeMerkleValue bytes :=
    if bytes.length = 8 then .ok (decodeWord64 bytes).toInt64
    else .error ⟨"invalid i64-be-v1 encoding: expected exactly eight bytes"⟩

private theorem shiftIn {value byte bits : Nat} (hbyte : byte < 2 ^ 8) :
    value <<< 8 % 2 ^ (bits + 8) ||| byte = (value * 2 ^ 8 + byte) % 2 ^ (bits + 8) := by
  have hshift : value <<< 8 % 2 ^ (bits + 8) = (value % 2 ^ bits) <<< 8 := by
    rw [shiftLeft_eq, shiftLeft_eq, pow_add, mul_mod_mul_right]
  rw [hshift, ← shiftLeft_add_eq_or_of_lt hbyte, shiftLeft_eq, pow_add,
    mul_comm (2 ^ bits), mod_mul, mul_add_mod_of_lt hbyte, mul_comm value,
    mul_add_div (by decide), div_eq_of_lt hbyte, add_zero, mul_comm, add_comm]

private theorem shiftIn32 (value : UInt32) (byte : UInt8) :
    (value <<< 8 ||| byte.toUInt32).toNat = (value.toNat * 2 ^ 8 + byte.toNat) % 2 ^ (24 + 8) := by
  rw [← shiftIn byte.toNat_lt]
  rfl

private theorem shiftIn64 (value : UInt64) (byte : UInt8) :
    (value <<< 8 ||| byte.toUInt64).toNat = (value.toNat * 2 ^ 8 + byte.toNat) % 2 ^ (56 + 8) := by
  rw [← shiftIn byte.toNat_lt]
  rfl

variable {bytes : ByteString}

theorem decodeWord32_eq (h : bytes.length = 4) :
    (decodeWord32 bytes).toInt32 = decodeInt32 bytes := by
  match bytes, h with
  | [a, b, c, d], _ =>
      have ha := a.toNat_lt
      have hb := b.toNat_lt
      have hc := c.toNat_lt
      have hd := d.toNat_lt
      refine congrArg UInt32.toInt32 (UInt32.toNat_inj.mp ?_)
      simp only [decodeWord32, foldl_cons, foldl_nil, shiftIn32, byteAt,
        getD_cons_zero, getD_cons_succ, UInt32.toNat_ofNat', UInt32.toNat_zero]
      omega

theorem int32_canonical : int32MerkleCodec.Canonical fun _ => True where
  encodes value := ⟨fun _ => ⟨_, rfl⟩, fun _ => trivial⟩
  decode_encode value bytes h := by
    cases h
    have hlength := int32BigEndian_length value
    simp [int32MerkleCodec, decodeWord32_eq hlength, decodeInt32_int32BigEndian]
  encode_decode value bytes h := by
    simp only [int32MerkleCodec] at h ⊢
    split at h
    · next hlength =>
      cases h
      rw [decodeWord32_eq hlength, int32BigEndian_decodeInt32 hlength]
    · cases h

theorem decodeWord64_word64BigEndian (value : UInt64) :
    decodeWord64 (word64BigEndian value) = value := by
  have hvalue := value.toNat_lt
  apply UInt64.toNat_inj.mp
  simp only [decodeWord64, word64BigEndian, foldl_cons, foldl_nil, shiftIn64,
    UInt64.toNat_toUInt8, UInt64.toNat_shiftRight, shiftRight_eq_div_pow, UInt64.reduceToNat,
    reduceMod, reducePow]
  omega

theorem word64BigEndian_decodeWord64 (h : bytes.length = 8) :
    word64BigEndian (decodeWord64 bytes) = bytes := by
  match bytes, h with
  | [a, b, c, d, e, f, g, i], _ =>
      have ha := a.toNat_lt
      have hb := b.toNat_lt
      have hc := c.toNat_lt
      have hd := d.toNat_lt
      have he := e.toNat_lt
      have hf := f.toNat_lt
      have hg := g.toNat_lt
      have hi := i.toNat_lt
      simp only [decodeWord64, word64BigEndian, foldl_cons, foldl_nil, List.cons.injEq,
        and_true, ← UInt8.toNat_inj, UInt64.toNat_toUInt8, UInt64.toNat_shiftRight, shiftIn64,
        shiftRight_eq_div_pow, UInt64.reduceToNat, reduceMod, reducePow]
      omega

theorem int64_canonical : int64MerkleCodec.Canonical fun _ => True where
  encodes value := ⟨fun _ => ⟨_, rfl⟩, fun _ => trivial⟩
  decode_encode value bytes h := by
    cases h
    exact congrArg (fun word => Except.ok word.toInt64) (decodeWord64_word64BigEndian _)
  encode_decode value bytes h := by
    simp only [int64MerkleCodec] at h ⊢
    split at h
    · next hlength =>
      cases h
      exact congrArg Except.ok (word64BigEndian_decodeWord64 hlength)
    · cases h

/-! ### Nullable text -/

/-- The strict decoder of the text library: shortest forms of Unicode scalar values only. -/
def decodeUtf8 (payload : ByteString) : Option HaskellString :=
  payload.toByteArray.utf8Decode?.map fun characters => characters.toList.map codePoint

def nullableUtf8MerkleCodec : MerkleCodec (Option HaskellString) where
  merkleEncodingId := ['n', 'u', 'l', 'l', 'a', 'b', 'l', 'e', '-', 'u', 't', 'f', '8', '-', 'v',
    '1'].map codePoint
  encodeMerkleValue
    | none => .ok [0]
    | some text => (encodeUtf8Strict "invalid nullable-utf8-v1 value" text).map (1 :: ·)
  decodeMerkleValue
    | [] => .error ⟨"invalid nullable-utf8-v1 encoding: nullable tag is missing"⟩
    | tag :: payload =>
        if tag = 0 then
          if payload = [] then .ok none
          else .error ⟨"invalid nullable-utf8-v1 encoding: null has trailing bytes"⟩
        else if tag = 1 then
          match decodeUtf8 payload with
          | none => .error ⟨"invalid nullable-utf8-v1 encoding: payload is not canonical UTF-8"⟩
          | some text => .ok (some text)
        else .error ⟨"invalid nullable-utf8-v1 encoding: nullable tag must be zero or one"⟩

theorem encodeUtf8CodePoint_codePoint (character : Char) :
    encodeUtf8CodePoint (codePoint character) = String.utf8EncodeChar character := by
  have hrange := (codePoint character).isLt
  have hvalue : (codePoint character).val = character.val.toNat := rfl
  rw [encodeUtf8CodePoint, String.utf8EncodeChar, ← hvalue]
  generalize (codePoint character).val = value at hrange
  by_cases hone : value < 0x80
  · rw [if_pos hone, if_pos (show value ≤ 0x7f by omega)]
  rw [if_neg hone, if_neg (show ¬ value ≤ 0x7f by omega)]
  by_cases htwo : value < 0x800
  · rw [if_pos htwo, if_pos (show value ≤ 0x7ff by omega)]
    simp only [List.cons.injEq, and_true, ← UInt8.toNat_inj, UInt8.toNat_ofNat']
    omega
  rw [if_neg htwo, if_neg (show ¬ value ≤ 0x7ff by omega)]
  by_cases hthree : value < 0x10000
  · rw [if_pos hthree, if_pos (show value ≤ 0xffff by omega)]
    simp only [List.cons.injEq, and_true, ← UInt8.toNat_inj, UInt8.toNat_ofNat']
    omega
  · rw [if_neg hthree, if_neg (show ¬ value ≤ 0xffff by omega)]
    simp only [List.cons.injEq, and_true, ← UInt8.toNat_inj, UInt8.toNat_ofNat']
    omega

theorem any_isSurrogate (characters : List Char) :
    (characters.map codePoint).any isSurrogate = false := by
  rw [any_map, any_eq_false]
  intro character hcharacter
  have hvalid := character.valid
  simp only [UInt32.isValidChar, Nat.isValidChar] at hvalid
  simp only [isSurrogate, codePoint, Char.toNat, Function.comp_apply, Bool.and_eq_true]
  rintro ⟨hlow, hhigh⟩
  have hlow := of_decide_eq_true hlow
  have hhigh := of_decide_eq_true hhigh
  omega

variable {text : HaskellString}

theorem exists_characters (h : text.any isSurrogate = false) :
    ∃ characters : List Char, text = characters.map codePoint := by
  induction text with
  | nil => exact ⟨[], rfl⟩
  | cons character text ih =>
      rw [any_cons, Bool.or_eq_false_iff] at h
      obtain ⟨characters, rfl⟩ := ih h.2
      have hscalar : character.val.isValidChar := by
        have hsurrogate := h.1
        simp only [isSurrogate, Bool.and_eq_false_iff, decide_eq_false_iff_not] at hsurrogate
        simp only [Nat.isValidChar]
        omega
      refine ⟨Char.ofNatAux character.val hscalar :: characters, ?_⟩
      rfl

theorem encodeUtf8Strict_eq_ok {context : String} :
    encodeUtf8Strict context text = .ok bytes ↔ ∃ characters : List Char,
      text = characters.map codePoint ∧ bytes = characters.flatMap String.utf8EncodeChar := by
  have hencoded : ∀ characters : List Char, (characters.map codePoint).flatMap
      encodeUtf8CodePoint = characters.flatMap String.utf8EncodeChar := by
    intro characters
    rw [flatMap_map]
    simp only [encodeUtf8CodePoint_codePoint]
  unfold encodeUtf8Strict
  constructor
  · intro h
    split at h
    · cases h
    · next hscalars =>
      obtain ⟨characters, rfl⟩ := exists_characters (eq_false_of_ne_true hscalars)
      cases h
      exact ⟨characters, rfl, hencoded characters⟩
  · rintro ⟨characters, rfl, rfl⟩
    rw [any_isSurrogate, if_neg Bool.false_ne_true, hencoded]

theorem decodeUtf8_eq_some {payload : ByteString} :
    decodeUtf8 payload = some text ↔ ∃ characters : List Char,
      text = characters.map codePoint ∧ payload = characters.flatMap String.utf8EncodeChar := by
  unfold decodeUtf8
  constructor
  · intro h
    obtain ⟨characters, hdecoded, rfl⟩ := Option.map_eq_some_iff.mp h
    obtain ⟨valid, hvalid⟩ := ByteArray.isSome_utf8Decode?_iff.mp
      (Option.isSome_of_eq_some hdecoded)
    rw [hvalid, List.utf8Decode?_utf8Encode] at hdecoded
    cases hdecoded
    exact ⟨valid, rfl, toByteArray_inj.mp hvalid⟩
  · rintro ⟨characters, rfl, rfl⟩
    change Option.map _ characters.utf8Encode.utf8Decode? = _
    rw [List.utf8Decode?_utf8Encode, Option.map_some]

/-- Null, or a text without surrogates. -/
def SurrogateFree (value : Option HaskellString) : Prop :=
  ∀ text, value = some text → text.any isSurrogate = false

theorem nullableUtf8_canonical : nullableUtf8MerkleCodec.Canonical SurrogateFree where
  encodes value := by
    cases value with
    | none => exact ⟨fun _ => ⟨[0], rfl⟩, fun _ _ h => by cases h⟩
    | some text =>
        constructor
        · intro h
          obtain ⟨characters, hcharacters⟩ := exists_characters (h text rfl)
          exact ⟨_, map_eq_ok.mpr
            ⟨_, encodeUtf8Strict_eq_ok.mpr ⟨characters, hcharacters, rfl⟩, rfl⟩⟩
        · rintro ⟨bytes, h⟩ _ ⟨⟩
          obtain ⟨payload, hpayload, -⟩ := map_eq_ok.mp h
          obtain ⟨characters, rfl, -⟩ := encodeUtf8Strict_eq_ok.mp hpayload
          exact any_isSurrogate characters
  decode_encode value bytes h := by
    cases value with
    | none =>
        cases h
        rfl
    | some text =>
        obtain ⟨payload, hpayload, rfl⟩ := map_eq_ok.mp h
        have hdecoded := decodeUtf8_eq_some.mpr (encodeUtf8Strict_eq_ok.mp hpayload)
        simp [nullableUtf8MerkleCodec, hdecoded]
  encode_decode value bytes h := by
    cases bytes with
    | nil => cases h
    | cons tag payload =>
    simp only [nullableUtf8MerkleCodec] at h
    split at h
    · next htag =>
      subst htag
      split at h
      · next hpayload =>
        cases h
        rw [hpayload]
        rfl
      · cases h
    split at h
    · next htag =>
      subst htag
      split at h
      · cases h
      · next text hdecoded =>
        cases h
        exact map_eq_ok.mpr
          ⟨payload, encodeUtf8Strict_eq_ok.mpr (decodeUtf8_eq_some.mp hdecoded), rfl⟩
    · cases h

theorem nullableBytes_canonical : nullableBytesMerkleCodec.Canonical fun _ => True where
  encodes value := ⟨fun _ => nullableBytes_encode_total value, fun _ => trivial⟩
  decode_encode value bytes := nullableBytes_decode_encode
  encode_decode value bytes h := by
    cases bytes with
    | nil => cases h
    | cons tag payload =>
    simp only [nullableBytesMerkleCodec] at h
    split at h
    · next htag =>
      subst htag
      split at h
      · next hpayload =>
        cases h
        rw [hpayload]
        rfl
      · cases h
    split at h
    · next htag =>
      subst htag
      cases h
      rfl
    · cases h

/-- Sixteen bytes in network order. -/
structure Rfc4122Guid where
  rfc4122GuidBytes : ByteString
  length_eq : rfc4122GuidBytes.length = 16
  deriving DecidableEq

def makeRfc4122Guid (bytes : ByteString) : Except MerkleCodecError Rfc4122Guid :=
  if h : bytes.length = 16 then .ok ⟨bytes, h⟩
  else .error ⟨"an RFC-4122 GUID requires exactly sixteen bytes"⟩

def rfc4122GuidMerkleCodec : MerkleCodec Rfc4122Guid where
  merkleEncodingId := ['g', 'u', 'i', 'd', '-', 'r', 'f', 'c', '4', '1', '2', '2', '-', 'v',
    '1'].map codePoint
  encodeMerkleValue guid := .ok guid.rfc4122GuidBytes
  decodeMerkleValue := makeRfc4122Guid

theorem rfc4122Guid_canonical : rfc4122GuidMerkleCodec.Canonical fun _ => True where
  encodes guid := ⟨fun _ => ⟨_, rfl⟩, fun _ => trivial⟩
  decode_encode guid bytes h := by
    cases h
    exact dif_pos guid.length_eq
  encode_decode guid bytes h := by
    change makeRfc4122Guid bytes = .ok guid at h
    unfold makeRfc4122Guid at h
    split at h
    · cases h
      rfl
    · cases h

/-- Framing is injective, and every built-in codec is canonical on the values it encodes. -/
theorem hashing_separates :
    (∀ firstTag secondTag first second, (∀ bytes ∈ first, bytes.length < 2 ^ 31) →
      (∀ bytes ∈ second, bytes.length < 2 ^ 31) →
      framedBytes firstTag first = framedBytes secondTag second →
        firstTag = secondTag ∧ first = second) ∧
    (∀ tag fields, hashFramed tag fields = hashBytes (framedBytes tag fields)) ∧
    int32MerkleCodec.Canonical (fun _ => True) ∧ int64MerkleCodec.Canonical (fun _ => True) ∧
    nullableUtf8MerkleCodec.Canonical SurrogateFree ∧
    nullableBytesMerkleCodec.Canonical (fun _ => True) ∧
    rfc4122GuidMerkleCodec.Canonical (fun _ => True) := by
  refine ⟨fun firstTag secondTag first second hfirst hsecond h => ?_, fun _ _ => rfl,
    int32_canonical, int64_canonical, nullableUtf8_canonical, nullableBytes_canonical,
    rfc4122Guid_canonical⟩
  obtain ⟨htag, hfields⟩ := List.cons.inj h
  exact ⟨htag, fields_inj hfirst hsecond hfields⟩

/-- Two short fields and their concatenation. -/
theorem hashing_separates_split : framedBytes 0x4b [[1], [2]] ≠ framedBytes 0x4b [[1, 2]] := by
  intro h
  have hfields := (hashing_separates.1 0x4b 0x4b [[1], [2]] [[1, 2]] (by simp) (by simp) h).2
  simp at hfields

end Durable7.Hamt
