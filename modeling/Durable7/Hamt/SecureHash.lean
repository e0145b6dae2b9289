import Durable7.Hamt.Sha256
import Mathlib.Data.List.Induction

/-!
# The secure hash standard

The standard's hash of a string of bits: pad to whole blocks of 512 bits, extend each block to 64
words, mix 64 rounds into eight words.  Its constants are the leading fractional bits of square and
cube roots of primes.  `Hamt.sha256` computes it on bytes.
-/

namespace Durable7.Hamt

open List Nat

namespace SecureHash

abbrev Word := BitVec 32

def isPrime (n : Nat) : Bool := 2 ≤ n && (List.range n).all fun d => d < 2 || n % d != 0

def prime (place : Nat) : Nat := ((List.range 312).filter isPrime).getD place 0

/-- The greatest number below `2 ^ 40` whose power is at most `n`. -/
def floorRoot (degree n : Nat) : Nat :=
  (List.range 40).reverse.foldl
    (fun root bit => if (root + 2 ^ bit) ^ degree ≤ n then root + 2 ^ bit else root) 0

/-- The first 32 bits of the fractional part of a root. -/
def fractionalRoot (degree n : Nat) : Word :=
  BitVec.ofNat 32 (floorRoot degree (n * 2 ^ (32 * degree)))

def constant (t : Nat) : Word := fractionalRoot 3 (prime t)

/-! ## Functions -/

def ch (x y z : Word) : Word := (x &&& y) ^^^ (~~~x &&& z)

def maj (x y z : Word) : Word := (x &&& y) ^^^ (x &&& z) ^^^ (y &&& z)

def upperSigma0 (x : Word) : Word := x.rotateRight 2 ^^^ x.rotateRight 13 ^^^ x.rotateRight 22

def upperSigma1 (x : Word) : Word := x.rotateRight 6 ^^^ x.rotateRight 11 ^^^ x.rotateRight 25

def lowerSigma0 (x : Word) : Word := x.rotateRight 7 ^^^ x.rotateRight 18 ^^^ (x >>> 3)

def lowerSigma1 (x : Word) : Word := x.rotateRight 17 ^^^ x.rotateRight 19 ^^^ (x >>> 10)

/-- The words `W t` of the block `M`. -/
def schedule (M : Nat → Word) (t : Nat) : Word :=
  if t < 16 then M t
  else
    lowerSigma1 (schedule M (t - 2)) + schedule M (t - 7) + lowerSigma0 (schedule M (t - 15)) +
      schedule M (t - 16)

@[ext]
structure Variables where
  (a b c d e f g h : Word)

def initial : Variables :=
  let root := fun place => fractionalRoot 2 (prime place)
  ⟨root 0, root 1, root 2, root 3, root 4, root 5, root 6, root 7⟩

def round (M : Nat → Word) (s : Variables) (t : Nat) : Variables :=
  let t1 := s.h + upperSigma1 s.e + ch s.e s.f s.g + constant t + schedule M t
  let t2 := upperSigma0 s.a + maj s.a s.b s.c
  ⟨t1 + t2, s.a, s.b, s.c, s.d + t1, s.e, s.f, s.g⟩

def compress (s : Variables) (M : Nat → Word) : Variables :=
  let last := (List.range 64).foldl (round M) s
  ⟨last.a + s.a, last.b + s.b, last.c + s.c, last.d + s.d, last.e + s.e, last.f + s.f,
    last.g + s.g, last.h + s.h⟩

/-- The bits of a word, the most significant first. -/
def bitsOf {w : Nat} (x : BitVec w) : List Bool := (List.range w).map x.getMsbD

def number (bits : List Bool) : Nat := bits.foldl (fun value bit => 2 * value + bit.toNat) 0

/-- `1`, the fewest zeros that leave 64 bits of the last block, and the length. -/
def pad (bits : List Bool) : List Bool :=
  bits ++ true :: List.replicate ((447 - bits.length : Int) % 512).toNat false ++
    bitsOf (BitVec.ofNat 64 bits.length)

def blockWord (bits : List Bool) (block t : Nat) : Word :=
  BitVec.ofNat 32 (number ((bits.drop (512 * block + 32 * t)).take 32))

def hash (message : List Bool) : List Bool :=
  let padded := pad message
  let s := (List.range (padded.length / 512)).foldl
    (fun s block => compress s (blockWord padded block)) initial
  [s.a, s.b, s.c, s.d, s.e, s.f, s.g, s.h].flatMap bitsOf

def messageBits (bytes : ByteString) : List Bool := bytes.flatMap fun byte => bitsOf byte.toBitVec

/-! ## Words of bytes -/

theorem messageBits_append (left right : ByteString) :
    messageBits (left ++ right) = messageBits left ++ messageBits right := flatMap_append

theorem length_messageBits (bytes : ByteString) :
    (messageBits bytes).length = 8 * bytes.length := by
  induction bytes with
  | nil => rfl
  | cons byte bytes ih => simp [messageBits, bitsOf] at ih ⊢; omega

theorem messageBits_drop (bytes : ByteString) (amount : Nat) :
    messageBits (bytes.drop amount) = (messageBits bytes).drop (8 * amount) := by
  by_cases hamount : amount ≤ bytes.length
  · conv_rhs => rw [← take_append_drop amount bytes, messageBits_append]
    rw [drop_left' (by simp [length_messageBits, hamount])]
  · rw [drop_eq_nil_of_le (by omega), drop_eq_nil_of_le (by rw [length_messageBits]; omega)]
    rfl

theorem messageBits_take (bytes : ByteString) (amount : Nat) :
    messageBits (bytes.take amount) = (messageBits bytes).take (8 * amount) := by
  by_cases hamount : amount ≤ bytes.length
  · conv_rhs => rw [← take_append_drop amount bytes, messageBits_append]
    rw [take_left' (by simp [length_messageBits, hamount])]
  · rw [take_of_length_le (by omega), take_of_length_le (by rw [length_messageBits]; omega)]

theorem messageBits_word32 (value : UInt32) :
    messageBits (word32BigEndian value) = bitsOf value.toBitVec := by
  simp [messageBits, word32BigEndian, bitsOf, List.range_succ]

theorem messageBits_word64 (value : UInt64) :
    messageBits (word64BigEndian value) = bitsOf value.toBitVec := by
  simp [messageBits, word64BigEndian, bitsOf, List.range_succ]

theorem number_concat (bits : List Bool) (bit : Bool) :
    number (bits ++ [bit]) = 2 * number bits + bit.toNat := foldl_append

theorem number_append (left right : List Bool) :
    number (left ++ right) = number left * 2 ^ right.length + number right := by
  induction right using List.reverseRecOn with
  | nil => simp [number]
  | append_singleton right bit ih =>
      rw [← append_assoc, number_concat, number_concat, ih, length_append, length_singleton]
      grind

theorem number_bitsOf : ∀ byte : BitVec 8, number (bitsOf byte) = byte.toNat := by
  decide +kernel

theorem shift_or (word : BitVec 32) (byte : BitVec 8) :
    word <<< 8 ||| byte.setWidth 32 = word * 256 + byte.setWidth 32 := by
  rw [← BitVec.add_eq_or_of_and_eq_zero]
  · rw [BitVec.shiftLeft_eq_mul_twoPow]
    rfl
  · ext i hi
    simp
    exact fun hle _ => BitVec.getLsbD_of_ge _ _ hle

theorem decodeWord32_eq (bytes : ByteString) :
    (decodeWord32 bytes).toBitVec = BitVec.ofNat 32 (number (messageBits bytes)) := by
  induction bytes using List.reverseRecOn with
  | nil => rfl
  | append_singleton bytes byte ih =>
      rw [messageBits_append, number_append, decodeWord32, foldl_append]
      simp only [decodeWord32] at ih
      simp [shift_or, ih, number_bitsOf, messageBits]
      apply BitVec.eq_of_toNat_eq
      simp [bitsOf]

theorem chunkBytes_eq {width : Nat} (count : Nat) (hwidth : 0 < width) {bytes : ByteString}
    (hlength : bytes.length = width * count) :
    chunkBytes width bytes =
      (List.range count).map fun place => (bytes.drop (width * place)).take width := by
  induction count generalizing bytes with
  | zero =>
      rw [eq_nil_of_length_eq_zero hlength, chunkBytes]
      rfl
  | succ count ih =>
      have hnonempty : bytes ≠ [] := by
        rintro rfl
        simp at hlength
        omega
      rw [chunkBytes, if_neg (by simp [hnonempty]; omega),
        ih (by rw [length_drop, hlength, mul_succ]; omega), range_succ_eq_map]
      simp [drop_drop, mul_succ, add_comm]

theorem length_padded (input : ByteString) : (sha256Padded input).length % 64 = 0 := by
  simp [sha256Padded, word64BigEndian]
  omega

theorem messageBits_padded (input : ByteString) :
    messageBits (sha256Padded input) = pad (messageBits input) := by
  have hzeros (amount : Nat) :
      messageBits (List.replicate amount 0) = List.replicate (amount * 8) false := by
    rw [messageBits, flatMap_replicate, ← flatten_replicate_replicate]
    rfl
  have hmarker : messageBits [0x80] = true :: List.replicate 7 false := rfl
  have hcount : (UInt64.ofNat input.length * 8).toBitVec = BitVec.ofNat 64 (8 * input.length) := by
    rw [mul_comm, BitVec.ofNat_mul]
    rfl
  rw [sha256Padded, messageBits_append, messageBits_append, messageBits_append,
    messageBits_word64, hcount, hzeros, hmarker, pad, length_messageBits]
  simp only [append_assoc, cons_append, replicate_append_replicate]
  congr 4
  omega

/-! ## Rounds -/

theorem roundConstants_eq : roundConstants.map UInt32.toBitVec = (List.range 64).map constant := by
  decide +kernel

theorem initialHash_eq : initialHash.map UInt32.toBitVec =
    [initial.a, initial.b, initial.c, initial.d, initial.e, initial.f, initial.g, initial.h] := by
  decide +kernel

theorem getD_word {words : List UInt32} {W : Nat → Word} {count i : Nat} (hi : i < count)
    (hwords : words.map UInt32.toBitVec = (List.range count).map W) :
    (words.getD i 0).toBitVec = W i := by
  have hget := congrArg (·[i]?) hwords
  simp only [getElem?_map, getElem?_range hi, Option.map_some, Option.map_eq_some_iff] at hget
  obtain ⟨word, hword, heq⟩ := hget
  rw [getD_eq_getElem?_getD, hword]
  exact heq

theorem map_schedule {words : List UInt32} {M : Nat → Word}
    (hwords : words.map UInt32.toBitVec = (List.range 16).map M) (count : Nat) :
    ((List.range' 16 count).foldl extendSchedule words).map UInt32.toBitVec =
      (List.range (16 + count)).map (schedule M) := by
  induction count with
  | zero =>
      rw [range'_zero, foldl_nil, hwords]
      exact map_congr_left fun t ht => by rw [schedule, if_pos (mem_range.mp ht)]
  | succ count ih =>
      rw [range'_1_concat, foldl_append, foldl_cons, foldl_nil, extendSchedule, map_append, ih,
        ← add_assoc, range_succ, map_append]
      have hword := fun i hi => getD_word (i := i) hi ih
      rw [map_singleton, map_singleton, schedule, if_neg (by omega)]
      simp only [UInt32.toBitVec_add, ← hword _ (show 16 + count - 2 < 16 + count by omega),
        ← hword _ (show 16 + count - 7 < 16 + count by omega),
        ← hword _ (show 16 + count - 15 < 16 + count by omega),
        ← hword _ (show 16 + count - 16 < 16 + count by omega)]
      rfl

def variablesOf (s : Registers) : Variables :=
  ⟨s.a.toBitVec, s.b.toBitVec, s.c.toBitVec, s.d.toBitVec, s.e.toBitVec, s.f.toBitVec,
    s.g.toBitVec, s.h.toBitVec⟩

section

variable {words : List UInt32} {M : Nat → Word}
  (hwords : words.map UInt32.toBitVec = (List.range 64).map (schedule M))

include hwords

theorem variablesOf_roundStep {t : Nat} (ht : t < 64) (s : Registers) :
    variablesOf (roundStep words s t) = round M (variablesOf s) t := by
  rw [round, ← getD_word ht hwords, ← getD_word ht roundConstants_eq]
  rfl

theorem variablesOf_rounds {count : Nat} (hcount : count ≤ 64) (s : Registers) :
    variablesOf ((List.range count).foldl (roundStep words) s) =
      (List.range count).foldl (round M) (variablesOf s) := by
  induction count with
  | zero => rfl
  | succ count ih =>
      rw [range_succ, foldl_append, foldl_append, foldl_cons, foldl_cons, foldl_nil, foldl_nil,
        variablesOf_roundStep hwords hcount, ih (le_of_succ_le hcount)]

end

def wordsOf (s : Variables) : List Word := [s.a, s.b, s.c, s.d, s.e, s.f, s.g, s.h]

theorem compress_eq {state next : List UInt32} {chunk : ByteString} {s : Variables}
    {M : Nat → Word} (hstate : state.map UInt32.toBitVec = wordsOf s)
    (hchunk : (chunkBytes 4 chunk).map (fun word => (decodeWord32 word).toBitVec) =
      (List.range 16).map M)
    (hnext : Hamt.compress state chunk = some next) :
    next.map UInt32.toBitVec = wordsOf (compress s M) := by
  have hdecoded : ((chunkBytes 4 chunk).map decodeWord32).map UInt32.toBitVec =
      (List.range 16).map M := by rw [map_map, ← hchunk]; rfl
  have hwords := map_schedule hdecoded 48
  unfold Hamt.compress at hnext
  split at hnext
  · rename_i h0 h1 h2 h3 h4 h5 h6 h7
    obtain rfl : variablesOf ⟨h0, h1, h2, h3, h4, h5, h6, h7⟩ = s := by
      simp [wordsOf] at hstate
      ext1 <;> simp [variablesOf, hstate]
    cases hnext
    rw [compress, ← variablesOf_rounds hwords (le_refl 64)]
    simp [wordsOf, variablesOf, Hamt.schedule, BitVec.add_comm]
  · cases hnext

theorem chunk_words {bytes : ByteString} {count place : Nat} (hlength : bytes.length = 64 * count)
    (hplace : place < count) :
    (chunkBytes 4 ((bytes.drop (64 * place)).take 64)).map
        (fun word => (decodeWord32 word).toBitVec) =
      (List.range 16).map (blockWord (messageBits bytes) place) := by
  rw [chunkBytes_eq 16 (by decide) (by simp; omega), map_map]
  refine map_congr_left fun t ht => ?_
  rw [mem_range] at ht
  rw [blockWord, Function.comp_apply, decodeWord32_eq, drop_take, drop_drop, take_take,
    show min 4 (64 - 4 * t) = 4 by omega, messageBits_take, messageBits_drop]
  congr 4
  omega

theorem chunks_fold {bytes : ByteString} {count : Nat} (hlength : bytes.length = 64 * count)
    {amount : Nat} (hamount : amount ≤ count) {final : List UInt32}
    (hfinal : ((List.range amount).map fun place => (bytes.drop (64 * place)).take 64).foldlM
      Hamt.compress initialHash = some final) :
    final.map UInt32.toBitVec = wordsOf ((List.range amount).foldl
      (fun s block => compress s (blockWord (messageBits bytes) block)) initial) := by
  induction amount generalizing final with
  | zero =>
      cases hfinal
      exact initialHash_eq
  | succ amount ih =>
      rw [range_succ, map_append, foldlM_append] at hfinal
      obtain ⟨state, hstate, hnext⟩ := Option.bind_eq_some_iff.mp hfinal
      rw [range_succ, foldl_append]
      exact compress_eq (ih (le_of_succ_le hamount) hstate) (chunk_words hlength hamount)
        (by simpa using hnext)

theorem sha256_eq_hash (input : ByteString) :
    messageBits (sha256 input) = hash (messageBits input) ∧
      (∀ chunk ∈ chunkBytes 64 (sha256Padded input), chunk.length = 64) ∧
      sha256State input ≠ none := by
  have hlength : (sha256Padded input).length = 64 * ((sha256Padded input).length / 64) := by
    have := length_padded input
    omega
  have hchunks := chunkBytes_eq _ (by decide) hlength
  obtain ⟨final, hfinal, -⟩ := sha256State_eq_some input
  refine ⟨?_, ?_, by simp [hfinal]⟩
  · have hstate := hfinal
    rw [sha256State, hchunks] at hstate
    have hwords := chunks_fold hlength (le_refl _) hstate
    have hbits : ∀ words : List UInt32, messageBits (words.flatMap word32BigEndian) =
        (words.map UInt32.toBitVec).flatMap bitsOf := by
      intro words
      simp only [messageBits, flatMap_assoc, flatMap_map]
      exact flatMap_congr fun word _ => messageBits_word32 word
    rw [hash, ← messageBits_padded, length_messageBits, sha256, hbits]
    rw [show 8 * (sha256Padded input).length / 512 = (sha256Padded input).length / 64 by omega]
    simp only [hfinal, Option.get_some, hwords]
    rfl
  · intro chunk hchunk
    rw [hchunks] at hchunk
    obtain ⟨place, hplace, rfl⟩ := mem_map.mp hchunk
    rw [mem_range] at hplace
    simp
    omega

end SecureHash

end Durable7.Hamt
