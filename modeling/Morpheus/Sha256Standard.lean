import Morpheus.Fips180
import Morpheus.Sha256Context

/-!
# The fingerprint and the standard

What `gener-source-preparer.c` computes is the digest of FIPS 180-4.
-/
namespace Morpheus.Sha256
open Fips180 (bytesBits messageWord scheduled)

section Rounds

theorem getD_of_map {words : List UInt32} {count index : ℕ} {value : ℕ → Fips180.Word}
    (h : words.map UInt32.toBitVec = (List.range count).map value) (hindex : index < count) :
    (words.getD index 0).toBitVec = value index := by
  have hget := congrArg (·[index]?) h
  simp only [List.getElem?_map, List.getElem?_range hindex, Option.map_some] at hget
  obtain ⟨word, hword, heq⟩ := Option.map_eq_some_iff.mp hget
  rw [List.getD_eq_getElem?_getD, hword, ← heq]
  rfl

theorem rotateRight_toBitVec (value : UInt32) {count : UInt32} (hpos : 0 < count.toNat) (hlt : count.toNat < 32) :
    (rotateRight value count).toBitVec = Fips180.rotr count.toNat value.toBitVec := by
  have hright : (count.toBitVec % 32).toNat = count.toNat := by
    rw [BitVec.toNat_umod]
    exact Nat.mod_eq_of_lt hlt
  have hle : count ≤ 32 := UInt32.le_iff_toNat_le.mpr hlt.le
  have hleft : ((32 - count).toBitVec % 32).toNat = 32 - count.toNat := by
    have hsub := UInt32.toNat_sub_of_le _ _ hle
    rw [BitVec.toNat_umod, UInt32.toNat_toBitVec, hsub]
    exact Nat.mod_eq_of_lt (by change 32 - count.toNat < 32; omega)
  rw [rotateRight, Fips180.rotr, UInt32.toBitVec_or, UInt32.toBitVec_shiftRight, UInt32.toBitVec_shiftLeft,
    BitVec.ushiftRight_eq', BitVec.shiftLeft_eq', hright, hleft, BitVec.rotateRight, Nat.mod_eq_of_lt hlt]
  rfl
/-- The state as the standard has it. -/
def Words.variables (s : Words) : Fips180.Variables :=
  ⟨s.a.toBitVec, s.b.toBitVec, s.c.toBitVec, s.d.toBitVec, s.e.toBitVec, s.f.toBitVec, s.g.toBitVec,
    s.h.toBitVec⟩

theorem round_variables (s : Words) (k w : UInt32) :
    (round s (k + w)).variables = Fips180.round s.variables k.toBitVec w.toBitVec := by
  simp only [round, Words.variables, Fips180.round, Fips180.upperSigma0, Fips180.upperSigma1, Fips180.ch, Fips180.maj,
    UInt32.toBitVec_add, UInt32.toBitVec_xor, UInt32.toBitVec_and, UInt32.toBitVec_not]
  rw [rotateRight_toBitVec _ (by decide) (by decide), rotateRight_toBitVec _ (by decide) (by decide),
    rotateRight_toBitVec _ (by decide) (by decide), rotateRight_toBitVec _ (by decide) (by decide),
    rotateRight_toBitVec _ (by decide) (by decide), rotateRight_toBitVec _ (by decide) (by decide)]
  simp only [BitVec.add_assoc]
  rfl

end Rounds

section Constants

/-- The primes below 312. -/
def primes : List ℕ :=
  [2, 3, 5, 7, 11, 13, 17, 19, 23, 29, 31, 37, 41, 43, 47, 53, 59, 61, 67, 71, 73, 79, 83, 89, 97, 101, 103,
    107, 109, 113, 127, 131, 137, 139, 149, 151, 157, 163, 167, 173, 179, 181, 191, 193, 197, 199, 211, 223,
    227, 229, 233, 239, 241, 251, 257, 263, 269, 271, 277, 281, 283, 293, 307, 311]

theorem prime_iff {n : ℕ} (hn : n < 312) :
    Nat.Prime n ↔ 2 ≤ n ∧ ∀ m < 18, 2 ≤ m → m * m ≤ n → ¬m ∣ n := by
  rw [Nat.prime_def_le_sqrt]
  refine and_congr_right fun _ => ⟨fun h m _ htwo hm => h m htwo (Nat.le_sqrt.mpr hm), fun h m htwo hm => ?_⟩
  have hsquare := Nat.le_sqrt.mp hm
  exact h m (by nlinarith) htwo hsquare

theorem filter_range_prime : (List.range 312).filter (Nat.Prime ·) = primes := by
  have hsmall :
      (List.range 312).filter (fun n => 2 ≤ n ∧ ∀ m < 18, 2 ≤ m → m * m ≤ n → ¬m ∣ n) = primes := by
    decide +kernel
  rw [← hsmall]
  exact List.filter_congr fun n hn => by simp only [prime_iff (List.mem_range.mp hn)]

theorem primes_eq_nth : primes = (List.range 64).map (Nat.nth Nat.Prime) := by
  have hlist := Fips180.filter_range_eq_nth Nat.Prime 312
  rw [filter_range_prime] at hlist
  have hcount : Nat.count Nat.Prime 312 = 64 := by
    have hlen := congrArg List.length hlist
    rw [List.length_map, List.length_range] at hlen
    exact hlen.symm
  rw [hlist, hcount]

/-- The words are the fractions of the roots. -/
def AreRoots (k : ℕ) (prime : ℕ) (word : UInt32) : Prop :=
  ∃ whole < 18, (whole * 2 ^ 32 + word.toNat) ^ k ≤ prime * 2 ^ (32 * k) ∧
    prime * 2 ^ (32 * k) < (whole * 2 ^ 32 + word.toNat + 1) ^ k

instance (k prime : ℕ) (word : UInt32) : Decidable (AreRoots k prime word) :=
  inferInstanceAs (Decidable (∃ whole < 18, (whole * 2 ^ 32 + word.toNat) ^ k ≤ prime * 2 ^ (32 * k) ∧
    prime * 2 ^ (32 * k) < (whole * 2 ^ 32 + word.toNat + 1) ^ k))

theorem rootFraction_of_areRoots {k prime : ℕ} {word : UInt32} (hk : k ≠ 0) (h : AreRoots k prime word) :
    Fips180.rootFraction k prime = word.toBitVec := by
  obtain ⟨whole, -, hle, hlt⟩ := h
  exact Fips180.rootFraction_eq hk hle hlt

theorem map_rootFraction {k : ℕ} {primes : List ℕ} {words : List UInt32} (hk : k ≠ 0)
    (h : List.Forall₂ (AreRoots k) primes words) :
    primes.map (Fips180.rootFraction k) = words.map UInt32.toBitVec := by
  induction h with
  | nil => rfl
  | cons hroot _ ih => rw [List.map_cons, List.map_cons, ih, rootFraction_of_areRoots hk hroot]

theorem constants_eq : constants.map UInt32.toBitVec = (List.range 64).map Fips180.constant := by
  have hroots : List.Forall₂ (AreRoots 3) primes constants := by decide +kernel
  rw [← map_rootFraction (by decide) hroots, primes_eq_nth, List.map_map]
  rfl

theorem initial_variables : initial.variables = Fips180.initialHash := by
  have hroots : List.Forall₂ (AreRoots 2) (primes.take 8) [initial.a, initial.b, initial.c, initial.d,
      initial.e, initial.f, initial.g, initial.h] := by decide +kernel
  have hwords := map_rootFraction (by decide) hroots
  rw [primes_eq_nth, ← List.map_take, List.map_map, List.take_range] at hwords
  have hrange : List.range (min 8 64) = [0, 1, 2, 3, 4, 5, 6, 7] := rfl
  rw [hrange] at hwords
  simp only [List.map_cons, List.map_nil, Function.comp_apply, List.cons.injEq, and_true] at hwords
  obtain ⟨ha, hb, hc, hd, he, hf, hg, hh⟩ := hwords
  simp only [Words.variables, Fips180.initialHash, Fips180.initialWord, ha, hb, hc, hd, he, hf, hg, hh]

end Constants

section Schedule
variable {words : List UInt32} {index : ℕ}

theorem shift_toBitVec (value : UInt32) {count : UInt32} (hlt : count.toNat < 32) :
    (value >>> count).toBitVec = Fips180.shr count.toNat value.toBitVec := by
  have hcount : (count.toBitVec % 32).toNat = count.toNat := by
    rw [BitVec.toNat_umod]
    exact Nat.mod_eq_of_lt hlt
  rw [Fips180.shr, UInt32.toBitVec_shiftRight, BitVec.ushiftRight_eq', hcount]

theorem nextWord_scheduled (block : ℕ → Fips180.Word) (hindex : 16 ≤ index)
    (h : words.map UInt32.toBitVec = (List.range index).map (scheduled block)) :
    (nextWord words index).map UInt32.toBitVec = (List.range (index + 1)).map (scheduled block) := by
  have hback :
      ∀ n, 0 < n → n ≤ 16 → (words.getD (index - n) 0).toBitVec = scheduled block (index - n) :=
    fun n hpos hn => getD_of_map h (by omega)
  rw [nextWord, List.map_append, h, List.range_succ, List.map_append]
  congr 1
  simp only [List.map_cons, List.map_nil, Fips180.scheduled_next hindex, UInt32.toBitVec_add, UInt32.toBitVec_xor,
    Fips180.lowerSigma0, Fips180.lowerSigma1]
  rw [rotateRight_toBitVec _ (by decide) (by decide), rotateRight_toBitVec _ (by decide) (by decide),
    rotateRight_toBitVec _ (by decide) (by decide), rotateRight_toBitVec _ (by decide) (by decide),
    shift_toBitVec _ (by decide), shift_toBitVec _ (by decide), hback 2 (by decide) (by decide),
    hback 7 (by decide) (by decide), hback 15 (by decide) (by decide), hback 16 (by decide) (by decide)]
  congr 1
  ac_rfl

theorem schedule_scheduled (block : Bytes) : (schedule block).map UInt32.toBitVec =
    (List.range 64).map (scheduled fun t => (wordAt block t).toBitVec) := by
  have hfirst : ((List.range 16).map (wordAt block)).map UInt32.toBitVec =
      (List.range 16).map (scheduled fun t => (wordAt block t).toBitVec) := by
    rw [List.map_map]
    refine List.map_congr_left fun t ht => ?_
    rw [Fips180.scheduled_block (List.mem_range.mp ht)]
    rfl
  have hprefix : ∀ count, (((List.range count).map (· + 16)).foldl nextWord
      ((List.range 16).map (wordAt block))).map UInt32.toBitVec =
        (List.range (count + 16)).map (scheduled fun t => (wordAt block t).toBitVec) := by
    intro count
    induction count with
    | zero => exact hfirst
    | succ count ih =>
      rw [@List.range_succ count, List.map_append, List.foldl_append]
      exact (nextWord_scheduled _ (Nat.le_add_left ..) ih).trans (by rw [Nat.add_right_comm])
  exact hprefix 48

/-- A block changes the state as the standard says. -/
theorem transform_variables (state : Words) (block : Bytes) :
    (transform state block).variables =
      Fips180.compress state.variables fun t => (wordAt block t).toBitVec := by
  have hwords := schedule_scheduled block
  have hlen : (schedule block).length = 64 := by
    have hlen := congrArg List.length hwords
    rwa [List.length_map, List.length_map, List.length_range] at hlen
  have hinputs : List.zipWith (· + ·) constants (schedule block) =
      (List.range 64).map fun t => constants.getD t 0 + (schedule block).getD t 0 := by
    apply List.ext_getElem
    · rw [List.length_zipWith, hlen, List.length_map, List.length_range]
      rfl
    · intro t h h'
      rw [List.length_map, List.length_range] at h'
      simp [List.getElem_zipWith, List.getD_eq_getElem?_getD, hlen, h', show t < constants.length from h']
  have hrounds : ∀ count ≤ 64, ((List.range count).foldl (fun s t => round s
      (constants.getD t 0 + (schedule block).getD t 0)) state).variables =
        (List.range count).foldl (fun s t => Fips180.round s (Fips180.constant t)
          (scheduled (fun t => (wordAt block t).toBitVec) t)) state.variables := by
    intro count hcount
    induction count with
    | zero => rfl
    | succ count ih =>
      rw [List.range_succ, List.foldl_append, List.foldl_append, List.foldl_cons, List.foldl_cons, List.foldl_nil,
        List.foldl_nil, round_variables, ih (by omega), getD_of_map constants_eq hcount, getD_of_map hwords hcount]
  have hall := hrounds 64 (Nat.le_refl _)
  rw [transform, hinputs, List.foldl_map, Fips180.compress, ← hall]
  simp only [Words.variables, UInt32.toBitVec_add, BitVec.add_comm]

end Schedule

section Message

theorem shiftByte_toNat (word : UInt32) (byte : UInt8) :
    (word <<< 8 ||| byte.toUInt32).toNat = (256 * word.toNat + byte.toNat) % 2 ^ 32 := by
  have hbyte : byte.toNat < 2 ^ 8 := byte.toNat_lt
  have hlow : word.toNat <<< 8 % 2 ^ 32 = (word.toNat % 2 ^ 24) <<< 8 := by
    rw [Nat.shiftLeft_eq, Nat.shiftLeft_eq]
    omega
  have hshift : (word <<< 8).toNat = word.toNat <<< 8 % 2 ^ 32 := UInt32.toNat_shiftLeft ..
  rw [UInt32.toNat_or, UInt8.toNat_toUInt32, hshift, hlow, ← Nat.shiftLeft_add_eq_or_of_lt hbyte, Nat.shiftLeft_eq]
  omega

theorem foldl_shiftByte_toNat (bytes : Bytes) :
    (bytes.foldl (fun (word : UInt32) byte => word <<< 8 ||| byte.toUInt32) 0).toNat =
      bytes.foldl (fun n byte => 256 * n + byte.toNat) 0 % 2 ^ 32 := by
  induction bytes using List.reverseRecOn with
  | nil => rfl
  | append_singleton bytes byte ih =>
    simp only [List.foldl_append, List.foldl_cons, List.foldl_nil, shiftByte_toNat, ih]
    omega

/-- The words of the blocks are those of the message. -/
theorem wordAt_messageWord (message : Bytes) (index : ℕ) {t : ℕ} (ht : t < 16) :
    (wordAt ((message.drop (64 * index)).take 64) t).toBitVec = messageWord (bytesBits message) index t := by
  have hstart : 512 * index + 32 * t = 8 * (64 * index + 4 * t) := by omega
  have hbytes : (((message.drop (64 * index)).take 64).drop (4 * t)).take 4 =
      (message.drop (64 * index + 4 * t)).take 4 := by
    rw [List.drop_take, List.take_take, List.drop_drop, Nat.min_eq_left (by omega)]
  apply BitVec.eq_of_toNat_eq
  rw [messageWord, hstart, Fips180.bytesBits_drop, Fips180.bytesBits_take _ 4, Fips180.ofBits_bytesBits,
    BitVec.toNat_ofNat, wordAt, hbytes]
  exact foldl_shiftByte_toNat _

/-- The state after the blocks of a message. -/
theorem foldl_transform_variables (message : Bytes) (count : ℕ) :
    ((blocks count message).foldl transform initial).variables =
      (List.range count).foldl (fun hash i => Fips180.compress hash (messageWord (bytesBits message) i))
        Fips180.initialHash := by
  induction count with
  | zero => exact initial_variables
  | succ count ih =>
    have hwords : ∀ t < 16, (wordAt ((message.drop (64 * count)).take 64) t).toBitVec =
      messageWord (bytesBits message) count t := fun t ht => wordAt_messageWord message count ht
    rw [blocks_add, List.foldl_append, List.range_succ, List.foldl_append, ← ih]
    exact (transform_variables ..).trans (Fips180.compress_congr _ hwords)

/-- The bit count is written as the standard writes the length. -/
theorem bytesBits_countBytes (bitCount : UInt64) :
    bytesBits (countBytes bitCount) = Fips180.toBits bitCount.toBitVec := by
  apply Fips180.ofBits_injective
  · rw [Fips180.bytesBits_length, Fips180.toBits_length]
    rfl
  · have hbyte : ∀ index : ℕ, index < 8 → (bitCount >>> UInt64.ofNat ((7 - index) * 8)).toUInt8.toNat =
        bitCount.toNat / 2 ^ ((7 - index) * 8) % 256 := by
      intro index hindex
      have hshift : (UInt64.ofNat ((7 - index) * 8)).toNat % 64 = (7 - index) * 8 := by
        rw [UInt64.toNat_ofNat']
        omega
      rw [UInt64.toNat_toUInt8, UInt64.toNat_shiftRight, hshift, Nat.shiftRight_eq_div_pow]
    have hrange : List.range 8 = [0, 1, 2, 3, 4, 5, 6, 7] := rfl
    have hlt := bitCount.toNat_lt
    have hfirst : 256 * 0 + bitCount.toNat / 2 ^ 56 % 256 = bitCount.toNat / 2 ^ 56 := by omega
    have hnext : ∀ s, 256 * (bitCount.toNat / 2 ^ (s + 8)) + bitCount.toNat / 2 ^ s % 256 =
        bitCount.toNat / 2 ^ s := by
      intro s
      rw [pow_add, ← Nat.div_div_eq_div_mul]
      omega
    rw [Fips180.ofBits_bytesBits, Fips180.ofBits_toBits, countBytes, List.foldl_map, hrange]
    simp only [List.foldl_cons, List.foldl_nil, hbyte 0 (by decide), hbyte 1 (by decide), hbyte 2 (by decide),
      hbyte 3 (by decide), hbyte 4 (by decide), hbyte 5 (by decide), hbyte 6 (by decide), hbyte 7 (by decide)]
    rw [hfirst, hnext 48, hnext 40, hnext 32, hnext 24, hnext 16, hnext 8, hnext 0, pow_zero, Nat.div_one,
      UInt64.toNat_toBitVec]

theorem bytesBits_padded (text : Bytes) : bytesBits (padded text) = Fips180.pad (bytesBits text) := by
  have hzeros : Fips180.zeroBits (8 * text.length) = 7 + 8 * ((119 - text.length % 64) % 64) :=
    Fips180.zeroBits_eq (by omega) (by omega)
  have hmark :
      ∀ count, bytesBits (0x80 :: List.replicate count 0) = true :: List.replicate (7 + 8 * count) false := by
    intro count
    induction count with
    | zero => rfl
    | succ count ih =>
      have hzero : bytesBits [0] = List.replicate 8 false := rfl
      rw [List.replicate_succ', ← List.cons_append, Fips180.bytesBits_append, ih, hzero, List.cons_append,
        ← List.replicate_add, Nat.mul_succ, Nat.add_assoc]
  have hlength : (UInt64.ofNat (text.length * 8)).toBitVec = BitVec.ofNat 64 (8 * text.length) := by
    rw [Nat.mul_comm]
    rfl
  have hpadded : padded text = text ++ 0x80 :: List.replicate ((119 - text.length % 64) % 64) 0 ++
      countBytes (UInt64.ofNat (text.length * 8)) := rfl
  rw [hpadded, Fips180.bytesBits_append, Fips180.bytesBits_append, hmark, bytesBits_countBytes, hlength, Fips180.pad,
    Fips180.bytesBits_length, hzeros]

end Message

section Digest

/-- The lowercase hexadecimal digits of a string of bits. -/
def lowerHex (bits : List Bool) :
    Bytes := (Fips180.quads bits).map fun value => (Nat.digitChar value).toUInt8

theorem digits_digitChar {value : ℕ} (h : value < 16) :
    digits.getD value 0 = (Nat.digitChar value).toUInt8 := by
  have hall : ∀ n : Fin 16, digits.getD n 0 = (Nat.digitChar n).toUInt8 := by decide +kernel
  exact hall ⟨value, h⟩

theorem digitPair_digitChar (byte : UInt8) : digitPair byte =
    [(Nat.digitChar (byte.toNat / 16)).toUInt8, (Nat.digitChar (byte.toNat % 16)).toUInt8] := by
  have hbyte := byte.toNat_lt
  rw [digitPair, high_toNat, low_toNat, digits_digitChar (by omega), digits_digitChar (by omega)]

/-- The digits of a word are those of its bits. -/
theorem wordBytes_digits (word : UInt32) (bits : List Bool) :
    lowerHex (Fips180.toBits word.toBitVec ++ bits) = (wordBytes word).flatMap digitPair ++ lowerHex bits := by
  have hshift : ∀ count : UInt32, count.toNat < 32 →
      (word >>> count).toUInt8.toNat = word.toNat / 2 ^ count.toNat % 256 := by
    intro count hcount
    rw [UInt32.toNat_toUInt8, UInt32.toNat_shiftRight, Nat.mod_eq_of_lt hcount, Nat.shiftRight_eq_div_pow]
  have hhigh : ∀ s, word.toNat / 2 ^ s % 256 / 16 = word.toNat / 2 ^ (s + 4) % 16 := by
    intro s
    rw [pow_add, ← Nat.div_div_eq_div_mul]
    omega
  have hlow : ∀ s, word.toNat / 2 ^ s % 256 % 16 = word.toNat / 2 ^ s % 16 := by
    intro s
    omega
  have hlast : word.toUInt8.toNat = word.toNat / 2 ^ 0 % 256 := by
    rw [UInt32.toNat_toUInt8, pow_zero, Nat.div_one]
  have hrange : List.range 8 = [0, 1, 2, 3, 4, 5, 6, 7] := rfl
  rw [lowerHex, Fips180.quads_toBits_append, List.map_append, ← lowerHex, hrange, wordBytes]
  simp only [List.flatMap_cons, List.flatMap_nil, digitPair_digitChar, hshift 24 (by decide), hshift 16 (by decide),
    hshift 8 (by decide), hlast, hhigh, hlow]
  rfl

/-- Every text is given the digest of FIPS 180-4 in lowercase hexadecimal digits, and a NUL behind them,
whatever was in the block. -/
theorem sha256Output_fips180 (block : Block) (text : Bytes) :
    sha256Output block text = lowerHex (Fips180.digest (bytesBits (cstr text))) ++ [0] := by
  have hstate : (sha256Update (sha256Init block) (cstr text)).finish.variables =
      Fips180.hash (bytesBits (cstr text)) := by
    have habsorbed := (absorbed_init block).update (cstr text)
    have hlength :
        (Fips180.pad (bytesBits (cstr text))).length / 512 = (padded (cstr text)).length / 64 := by
      rw [← bytesBits_padded, Fips180.bytesBits_length]
      omega
    rw [List.nil_append] at habsorbed
    rw [habsorbed.finish (update_bitCount block (cstr text)), foldl_transform_variables, bytesBits_padded, Fips180.hash, hlength]
  have hlast :
      ∀ word : UInt32, lowerHex (Fips180.toBits word.toBitVec) = (wordBytes word).flatMap digitPair := by
    intro word
    have h := wordBytes_digits word []
    rwa [List.append_nil, show lowerHex [] = [] from rfl, List.append_nil] at h
  rw [sha256Output, Fips180.digest, ← hstate]
  simp only [Words.variables, List.append_assoc, wordBytes_digits, hlast, List.append_nil, List.flatMap_cons,
    List.flatMap_nil, List.flatMap_append]

end Digest

end Morpheus.Sha256
