import Mathlib.Data.List.Basic
import Mathlib.Algebra.Ring.Nat
import Mathlib.Algebra.Ring.Int.Defs

/-!
# SHA-256 as the Merkle encoding computes it

A `ByteString` is its list of bytes and a machine word is a fixed-width
integer.  The compression function is defined only on eight-word states; the
source raises an error on any other state, which is the `none` branch here.
-/

namespace Durable7.Hamt

abbrev ByteString := List UInt8

def word32BigEndian (value : UInt32) : ByteString :=
  [(value >>> 24).toUInt8, (value >>> 16).toUInt8, (value >>> 8).toUInt8, value.toUInt8]

def word64BigEndian (value : UInt64) : ByteString :=
  [(value >>> 56).toUInt8, (value >>> 48).toUInt8, (value >>> 40).toUInt8,
    (value >>> 32).toUInt8, (value >>> 24).toUInt8, (value >>> 16).toUInt8,
    (value >>> 8).toUInt8, value.toUInt8]

@[simp] theorem word32BigEndian_length (value : UInt32) :
    (word32BigEndian value).length = 4 := rfl

def decodeWord32 (bytes : ByteString) : UInt32 :=
  bytes.foldl (fun value byte => value <<< 8 ||| byte.toUInt32) 0

/--
Consecutive chunks of `width` bytes; the last one may be shorter.  Only the
widths 4 and 64 are used.
-/
def chunkBytes (width : Nat) (bytes : ByteString) : List ByteString :=
  if bytes = [] ∨ width = 0 then []
  else bytes.take width :: chunkBytes width (bytes.drop width)
termination_by bytes.length
decreasing_by
  rename_i h
  have : 0 < bytes.length := List.length_pos_iff.mpr (fun h' => h (.inl h'))
  simp only [List.length_drop]
  omega

/-! ## Round functions -/

def rotateR (value amount : UInt32) : UInt32 := (value >>> amount) ||| (value <<< (32 - amount))

def choose (x y z : UInt32) : UInt32 := (x &&& y) ^^^ (~~~x &&& z)

def majority (x y z : UInt32) : UInt32 := (x &&& y) ^^^ (x &&& z) ^^^ (y &&& z)

def bigSigma0 (value : UInt32) : UInt32 := rotateR value 2 ^^^ rotateR value 13 ^^^ rotateR value 22

def bigSigma1 (value : UInt32) : UInt32 := rotateR value 6 ^^^ rotateR value 11 ^^^ rotateR value 25

def smallSigma0 (value : UInt32) : UInt32 := rotateR value 7 ^^^ rotateR value 18 ^^^ (value >>> 3)

def smallSigma1 (value : UInt32) : UInt32 :=
  rotateR value 17 ^^^ rotateR value 19 ^^^ (value >>> 10)

def initialHash : List UInt32 :=
  [0x6a09e667, 0xbb67ae85, 0x3c6ef372, 0xa54ff53a, 0x510e527f, 0x9b05688c, 0x1f83d9ab, 0x5be0cd19]

def roundConstants : List UInt32 :=
  [0x428a2f98, 0x71374491, 0xb5c0fbcf, 0xe9b5dba5,
    0x3956c25b, 0x59f111f1, 0x923f82a4, 0xab1c5ed5,
    0xd807aa98, 0x12835b01, 0x243185be, 0x550c7dc3,
    0x72be5d74, 0x80deb1fe, 0x9bdc06a7, 0xc19bf174,
    0xe49b69c1, 0xefbe4786, 0x0fc19dc6, 0x240ca1cc,
    0x2de92c6f, 0x4a7484aa, 0x5cb0a9dc, 0x76f988da,
    0x983e5152, 0xa831c66d, 0xb00327c8, 0xbf597fc7,
    0xc6e00bf3, 0xd5a79147, 0x06ca6351, 0x14292967,
    0x27b70a85, 0x2e1b2138, 0x4d2c6dfc, 0x53380d13,
    0x650a7354, 0x766a0abb, 0x81c2c92e, 0x92722c85,
    0xa2bfe8a1, 0xa81a664b, 0xc24b8b70, 0xc76c51a3,
    0xd192e819, 0xd6990624, 0xf40e3585, 0x106aa070,
    0x19a4c116, 0x1e376c08, 0x2748774c, 0x34b0bcb5,
    0x391c0cb3, 0x4ed8aa4a, 0x5b9cca4f, 0x682e6ff3,
    0x748f82ee, 0x78a5636f, 0x84c87814, 0x8cc70208,
    0x90befffa, 0xa4506ceb, 0xbef9a3f7, 0xc67178f2]

def extendSchedule (words : List UInt32) (index : Nat) : List UInt32 :=
  words ++
    [smallSigma1 (words.getD (index - 2) 0) + words.getD (index - 7) 0 +
      smallSigma0 (words.getD (index - 15) 0) + words.getD (index - 16) 0]

def schedule (chunk : ByteString) : List UInt32 :=
  (List.range' 16 48).foldl extendSchedule ((chunkBytes 4 chunk).map decodeWord32)

/-- The eight working variables of one compression. -/
structure Registers where
  (a b c d e f g h : UInt32)

def roundStep (words : List UInt32) (registers : Registers) (index : Nat) : Registers :=
  let temporary1 := registers.h + bigSigma1 registers.e +
    choose registers.e registers.f registers.g +
    roundConstants.getD index 0 + words.getD index 0
  let temporary2 := bigSigma0 registers.a + majority registers.a registers.b registers.c
  { a := temporary1 + temporary2
    b := registers.a
    c := registers.b
    d := registers.c
    e := registers.d + temporary1
    f := registers.e
    g := registers.f
    h := registers.g }

def compress : List UInt32 → ByteString → Option (List UInt32)
  | [h0, h1, h2, h3, h4, h5, h6, h7], chunk =>
      let last := (List.range 64).foldl (roundStep (schedule chunk))
        ⟨h0, h1, h2, h3, h4, h5, h6, h7⟩
      some (List.zipWith (· + ·) [h0, h1, h2, h3, h4, h5, h6, h7]
        [last.a, last.b, last.c, last.d, last.e, last.f, last.g, last.h])
  | _, _ => none

theorem compress_of_length {state : List UInt32} (chunk : ByteString) (h : state.length = 8) :
    ∃ next, compress state chunk = some next ∧ next.length = 8 := by
  match state, h with
  | [h0, h1, h2, h3, h4, h5, h6, h7], _ => exact ⟨_, rfl, rfl⟩

/-- The message, the `0x80` marker, zeros up to 56 mod 64, and the bit length. -/
def sha256Padded (input : ByteString) : ByteString :=
  let bitLength := UInt64.ofNat input.length * 8
  let remainder := (input.length + 1) % 64
  let zeroCount := ((56 - remainder : Int) % 64).toNat
  input ++ [0x80] ++ List.replicate zeroCount 0 ++ word64BigEndian bitLength

def sha256State (input : ByteString) : Option (List UInt32) :=
  (chunkBytes 64 (sha256Padded input)).foldlM compress initialHash

private theorem foldlM_compress (chunks : List ByteString) :
    ∀ state : List UInt32, state.length = 8 →
      ∃ final, chunks.foldlM compress state = some final ∧ final.length = 8 := by
  induction chunks with
  | nil => exact fun state h => ⟨state, rfl, h⟩
  | cons chunk chunks ih =>
      intro state h
      obtain ⟨next, hnext, hlength⟩ := compress_of_length chunk h
      obtain ⟨final, hfinal, hfinalLength⟩ := ih next hlength
      refine ⟨final, ?_, hfinalLength⟩
      rw [List.foldlM_cons, hnext]
      exact hfinal

theorem sha256State_eq_some (input : ByteString) :
    ∃ final, sha256State input = some final ∧ final.length = 8 :=
  foldlM_compress _ initialHash rfl

def sha256 (input : ByteString) : ByteString :=
  ((sha256State input).get
    (Option.isSome_iff_exists.mpr
      ((sha256State_eq_some input).imp fun _ h => h.1))).flatMap word32BigEndian

@[simp] theorem sha256_length (input : ByteString) : (sha256 input).length = 32 := by
  obtain ⟨final, hfinal, hlength⟩ := sha256State_eq_some input
  simp [sha256, hfinal, hlength]

/-- The FIPS 180-4 one-block example `"abc"` starts with `ba7816bf`. -/
example : (sha256 [0x61, 0x62, 0x63]).take 4 = [0xba, 0x78, 0x16, 0xbf] := by
  decide +kernel

end Durable7.Hamt
