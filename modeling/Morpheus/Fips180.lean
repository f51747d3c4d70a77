import Mathlib.Analysis.SpecialFunctions.Pow.NthRootLemmas
import Mathlib.Data.BitVec
import Mathlib.Data.Nat.Nth
import Mathlib.Data.Nat.Prime.Defs
import Mathlib.Tactic.Ring

/-!
# The secure hash standard

SHA-256 of a string of bits as FIPS 180-4 defines it: the message is padded and cut into words of
512-bit blocks, and the constants are the roots of the first primes.
-/
namespace Fips180

abbrev Word := BitVec 32

section BitStrings
variable {w : ℕ}

/-- The bits of a word, the first of them the most significant one. -/
def toBits (x : BitVec w) : List Bool := (List.range w).map x.getMsbD

/-- The number that is written in these bits. -/
def ofBits (bits : List Bool) : ℕ := bits.foldl (fun n bit => 2 * n + bit.toNat) 0

@[simp] theorem toBits_length (x : BitVec w) : (toBits x).length = w := by simp [toBits]

theorem ofBits_concat (bits : List Bool) (bit : Bool) :
    ofBits (bits ++ [bit]) = 2 * ofBits bits + bit.toNat := by
  simp [ofBits]

theorem foldl_bits (bits : List Bool) (n : ℕ) :
    bits.foldl (fun n bit => 2 * n + bit.toNat) n = 2 ^ bits.length * n + ofBits bits := by
  induction bits using List.reverseRecOn with
  | nil => simp [ofBits]
  | append_singleton bits bit ih =>
    rw [List.foldl_append, ih, ofBits_concat, List.length_append, List.length_singleton, pow_succ]
    simp only [List.foldl_cons, List.foldl_nil]
    ring

theorem ofBits_append (xs ys : List Bool) :
    ofBits (xs ++ ys) = 2 ^ ys.length * ofBits xs + ofBits ys := by
  rw [ofBits, List.foldl_append, foldl_bits]
  rfl

/-- A bit of a word is a binary digit of its number. -/
theorem getMsbD_toNat (x : BitVec w) {i : ℕ} (hi : i < w) :
    (x.getMsbD i).toNat = x.toNat / 2 ^ (w - 1 - i) % 2 := by
  rw [BitVec.getMsbD, decide_eq_true hi, Bool.true_and, BitVec.getLsbD, Nat.toNat_testBit]

/-- The number in the bits `start` to `start + count` of a word. -/
theorem ofBits_slice (x : BitVec w) {start count : ℕ} (h : start + count ≤ w) :
    ofBits (((toBits x).drop start).take count) = x.toNat / 2 ^ (w - start - count) % 2 ^ count := by
  induction count with
  | zero => simp [ofBits, Nat.mod_one]
  | succ count ih =>
    have hlast : ((toBits x).drop start).take (count + 1) =
        ((toBits x).drop start).take count ++ [x.getMsbD (start + count)] := by
      rw [List.take_add_one, List.getElem?_drop, toBits, List.getElem?_map,
        List.getElem?_range (by omega)]
      rfl
    have hexp : w - start - count = w - 1 - (start + count) + 1 := by omega
    have hlow : w - start - (count + 1) = w - 1 - (start + count) := by omega
    rw [hlast, ofBits_concat, ih (by omega), getMsbD_toNat x (by omega), hexp, hlow, pow_succ,
      ← Nat.div_div_eq_div_mul, pow_succ' 2 count, Nat.mod_mul]
    omega

theorem ofBits_toBits (x : BitVec w) : ofBits (toBits x) = x.toNat := by
  have h := @ofBits_slice w x 0 w (by omega)
  simpa [List.take_of_length_le, Nat.mod_eq_of_lt x.isLt] using h

/-- The hexadecimal digits of a string of bits. -/
def quads (bits : List Bool) : List ℕ :=
  (List.range (bits.length / 4)).map fun i => ofBits ((bits.drop (4 * i)).take 4)

theorem quads_toBits_append (x : Word) (bits : List Bool) :
    quads (toBits x ++ bits) = (List.range 8).map (fun i => x.toNat / 2 ^ (28 - 4 * i) % 16) ++ quads bits := by
  have hcount : (toBits x ++ bits).length / 4 = 8 + bits.length / 4 := by
    rw [List.length_append, toBits_length]
    omega
  rw [quads, hcount, List.range_add, List.map_append, List.map_map]
  congr 1
  · refine List.map_congr_left fun i hi => ?_
    have hi : i < 8 := List.mem_range.mp hi
    have hexp : 32 - 4 * i - 4 = 28 - 4 * i := by omega
    have hroom : 4 ≤ (toBits x).length - 4 * i := by
      rw [toBits_length]
      omega
    rw [List.drop_append_of_le_length (by rw [toBits_length]; omega),
      List.take_append_of_le_length (by rwa [List.length_drop]), ofBits_slice x (by omega), hexp]
    rfl
  · refine List.map_congr_left fun i _ => ?_
    have hdrop : (toBits x ++ bits).drop (4 * (8 + i)) = bits.drop (4 * i) := by
      rw [Nat.mul_add, ← List.drop_drop, List.drop_left' (toBits_length x)]
    simp only [Function.comp_apply, hdrop]

/-- Bits of the same number are the same, as many as they are. -/
theorem ofBits_injective {xs ys : List Bool} (hlen : xs.length = ys.length) (h : ofBits xs = ofBits ys) :
    xs = ys := by
  induction xs using List.reverseRecOn generalizing ys with
  | nil => exact (List.length_eq_zero_iff.mp hlen.symm).symm
  | append_singleton xs x ih =>
    cases ys using List.reverseRecOn with
    | nil => simp at hlen
    | append_singleton ys y =>
      rw [ofBits_concat, ofBits_concat] at h
      have hx := x.toNat_le
      have hy := y.toNat_le
      have hbits : x.toNat = y.toNat := by omega
      have hbit : x = y := by
        cases x <;> cases y <;> first | rfl | cases hbits
      rw [ih (by simpa using hlen) (by omega), hbit]

end BitStrings

section ByteStrings

/-- The bits of a string of bytes. -/
def bytesBits (bytes : List UInt8) : List Bool := bytes.flatMap fun byte => toBits byte.toBitVec

@[simp] theorem bytesBits_length (bytes : List UInt8) : (bytesBits bytes).length = 8 * bytes.length := by
  induction bytes with
  | nil => rfl
  | cons byte bytes ih =>
    rw [bytesBits, List.flatMap_cons, List.length_append, toBits_length, ← bytesBits, ih, List.length_cons]
    omega

theorem bytesBits_append (xs ys : List UInt8) : bytesBits (xs ++ ys) = bytesBits xs ++ bytesBits ys :=
  List.flatMap_append

theorem bytesBits_drop (bytes : List UInt8) (n : ℕ) :
    (bytesBits bytes).drop (8 * n) = bytesBits (bytes.drop n) := by
  rcases Nat.lt_or_ge n bytes.length with hn | hn
  · have hlen : (bytesBits (bytes.take n)).length = 8 * n := by
      rw [bytesBits_length, List.length_take, Nat.min_eq_left hn.le]
    conv_lhs => rw [← List.take_append_drop n bytes, bytesBits_append, List.drop_left' hlen]
  · rw [List.drop_eq_nil_of_le hn, List.drop_eq_nil_of_le (by rw [bytesBits_length]; omega)]
    rfl

theorem bytesBits_take (bytes : List UInt8) (n : ℕ) :
    (bytesBits bytes).take (8 * n) = bytesBits (bytes.take n) := by
  rcases Nat.lt_or_ge n bytes.length with hn | hn
  · have hlen : (bytesBits (bytes.take n)).length = 8 * n := by
      rw [bytesBits_length, List.length_take, Nat.min_eq_left hn.le]
    conv_lhs => rw [← List.take_append_drop n bytes, bytesBits_append, List.take_left' hlen]
  · rw [List.take_of_length_le hn, List.take_of_length_le (by rw [bytesBits_length]; omega)]

/-- The first byte is the most significant one. -/
theorem ofBits_bytesBits (bytes : List UInt8) :
    ofBits (bytesBits bytes) = bytes.foldl (fun n byte => 256 * n + byte.toNat) 0 := by
  induction bytes using List.reverseRecOn with
  | nil => rfl
  | append_singleton bytes byte ih =>
    have hlast : bytesBits [byte] = toBits byte.toBitVec := List.append_nil _
    rw [bytesBits_append, ofBits_append, ih, hlast, ofBits_toBits, toBits_length, List.foldl_append]
    rfl

end ByteStrings

section Functions

def rotr (n : ℕ) (x : Word) : Word := x.rotateRight n

def shr (n : ℕ) (x : Word) : Word := x >>> n

def ch (x y z : Word) : Word := (x &&& y) ^^^ (~~~x &&& z)

def maj (x y z : Word) : Word := (x &&& y) ^^^ (x &&& z) ^^^ (y &&& z)

def upperSigma0 (x : Word) : Word := rotr 2 x ^^^ rotr 13 x ^^^ rotr 22 x

def upperSigma1 (x : Word) : Word := rotr 6 x ^^^ rotr 11 x ^^^ rotr 25 x

def lowerSigma0 (x : Word) : Word := rotr 7 x ^^^ rotr 18 x ^^^ shr 3 x

def lowerSigma1 (x : Word) : Word := rotr 17 x ^^^ rotr 19 x ^^^ shr 10 x

end Functions

section Constants

/-- The first 32 bits of the fractional part of the `k`th root of a prime. -/
def rootFraction (k prime : ℕ) : Word := BitVec.ofNat 32 (Nat.nthRoot k (prime * 2 ^ (32 * k)))

/-- The constant of round `t`. -/
noncomputable def constant (t : ℕ) : Word := rootFraction 3 (Nat.nth Nat.Prime t)

/-- The words of the hash value, and the working variables of the rounds. -/
structure Variables where
  a : Word
  b : Word
  c : Word
  d : Word
  e : Word
  f : Word
  g : Word
  h : Word

noncomputable def initialWord (j : ℕ) : Word := rootFraction 2 (Nat.nth Nat.Prime j)

noncomputable def initialHash : Variables :=
  ⟨initialWord 0, initialWord 1, initialWord 2, initialWord 3, initialWord 4, initialWord 5,
    initialWord 6, initialWord 7⟩

/-- A root is the largest number whose power fits. -/
theorem rootFraction_eq {k prime whole : ℕ} {x : Word} (hk : k ≠ 0)
    (hle : (whole * 2 ^ 32 + x.toNat) ^ k ≤ prime * 2 ^ (32 * k))
    (hlt : prime * 2 ^ (32 * k) < (whole * 2 ^ 32 + x.toNat + 1) ^ k) : rootFraction k prime = x := by
  have hroot : Nat.nthRoot k (prime * 2 ^ (32 * k)) = whole * 2 ^ 32 + x.toNat := by
    apply Nat.le_antisymm
    · by_contra hmore
      have hpow : (whole * 2 ^ 32 + x.toNat + 1) ^ k ≤ k.nthRoot (prime * 2 ^ (32 * k)) ^ k :=
        Nat.pow_le_pow_left (Nat.lt_of_not_le hmore) k
      have hfits := @Nat.pow_nthRoot_le k (prime * 2 ^ (32 * k)) (.inl hk)
      omega
    · by_contra hless
      have hpow : (k.nthRoot (prime * 2 ^ (32 * k)) + 1) ^ k ≤ (whole * 2 ^ 32 + x.toNat) ^ k :=
        Nat.pow_le_pow_left (Nat.lt_of_not_le hless) k
      have hover := Nat.lt_pow_nthRoot_add_one hk (prime * 2 ^ (32 * k))
      omega
  apply BitVec.eq_of_toNat_eq
  rw [rootFraction, hroot, BitVec.toNat_ofNat]
  have hx := x.isLt
  omega

/-- The numbers with a property in their order are the first ones below a bound. -/
theorem filter_range_eq_nth (p : ℕ → Prop) [DecidablePred p] (n : ℕ) :
    (List.range n).filter (p ·) = (List.range (Nat.count p n)).map (Nat.nth p) := by
  induction n with
  | zero => rfl
  | succ n ih =>
    rw [List.range_succ, List.filter_append, ih, Nat.count_succ]
    by_cases hn : p n
    · simp [hn, List.range_succ]
    · simp [hn]

end Constants

section Message

/-- There is always a number of zero bits that leaves 64 bits of the last block. -/
theorem exists_zeroBits (length : ℕ) : ∃ k, (length + 1 + k) % 512 = 448 :=
  ⟨447 + 511 * length, by omega⟩

/-- The smallest number of zero bits that leaves 64 bits of the last block. -/
def zeroBits (length : ℕ) : ℕ := Nat.find (exists_zeroBits length)

theorem zeroBits_eq {length k : ℕ} (hk : k < 512) (h : (length + 1 + k) % 512 = 448) :
    zeroBits length = k := by
  have hspec := Nat.find_spec (exists_zeroBits length)
  have hle : zeroBits length ≤ k := Nat.find_min' (exists_zeroBits length) h
  unfold zeroBits at hle ⊢
  omega

/-- The message with its padding, the last 64 bits its length. -/
def pad (message : List Bool) : List Bool :=
  message ++ true :: List.replicate (zeroBits message.length) false ++
    toBits (BitVec.ofNat 64 message.length)

/-- Word `t` of block `i`. -/
def messageWord (padded : List Bool) (i t : ℕ) : Word :=
  BitVec.ofNat 32 (ofBits ((padded.drop (512 * i + 32 * t)).take 32))

/-- The message schedule of a block. -/
def scheduled (block : ℕ → Word) (t : ℕ) : Word :=
  if t < 16 then block t
  else lowerSigma1 (scheduled block (t - 2)) + scheduled block (t - 7) +
    lowerSigma0 (scheduled block (t - 15)) + scheduled block (t - 16)

theorem scheduled_block {block : ℕ → Word} {t : ℕ} (h : t < 16) : scheduled block t = block t := by
  rw [scheduled, if_pos h]

theorem scheduled_next {block : ℕ → Word} {t : ℕ} (h : 16 ≤ t) :
    scheduled block t = lowerSigma1 (scheduled block (t - 2)) + scheduled block (t - 7) +
      lowerSigma0 (scheduled block (t - 15)) + scheduled block (t - 16) := by
  rw [scheduled, if_neg (Nat.not_lt.mpr h)]

/-- A block has sixteen words. -/
theorem scheduled_congr {block other : ℕ → Word} (h : ∀ t < 16, block t = other t) (t : ℕ) :
    scheduled block t = scheduled other t := by
  induction t using Nat.strongRec with
  | ind t ih =>
    rcases Nat.lt_or_ge t 16 with ht | ht
    · rw [scheduled_block ht, scheduled_block ht, h t ht]
    · rw [scheduled_next ht, scheduled_next ht, ih (t - 2) (by omega), ih (t - 7) (by omega), ih (t - 15) (by omega),
        ih (t - 16) (by omega)]

def round (s : Variables) (k w : Word) : Variables :=
  let t₁ := s.h + upperSigma1 s.e + ch s.e s.f s.g + k + w
  let t₂ := upperSigma0 s.a + maj s.a s.b s.c
  ⟨t₁ + t₂, s.a, s.b, s.c, s.d + t₁, s.e, s.f, s.g⟩

noncomputable def compress (hash : Variables) (block : ℕ → Word) : Variables :=
  let s := (List.range 64).foldl (fun s t => round s (constant t) (scheduled block t)) hash
  ⟨s.a + hash.a, s.b + hash.b, s.c + hash.c, s.d + hash.d, s.e + hash.e, s.f + hash.f,
    s.g + hash.g, s.h + hash.h⟩

theorem compress_congr (hash : Variables) {block other : ℕ → Word} (h : ∀ t < 16, block t = other t) :
    compress hash block = compress hash other := by
  have hwords : scheduled block = scheduled other := funext (scheduled_congr h)
  rw [compress, compress, hwords]

noncomputable def hash (message : List Bool) : Variables :=
  (List.range ((pad message).length / 512)).foldl
    (fun hash i => compress hash (messageWord (pad message) i)) initialHash

/-- The digest of a message of less than `2 ^ 64` bits; of a longer one the length is taken modulo
`2 ^ 64`. -/
noncomputable def digest (message : List Bool) : List Bool :=
  let h := hash message
  toBits h.a ++ toBits h.b ++ toBits h.c ++ toBits h.d ++ toBits h.e ++ toBits h.f ++ toBits h.g ++
    toBits h.h

end Message

end Fips180
