import Morpheus.ReadStream
import Mathlib.Tactic.IntervalCases

/-!
# Words in VAX byte order

`put_int32`, `put_short`, `get_int32` and `get_short` of `vaxwords.c`: the low
byte of a word comes first in the file, whatever the machine.
-/
namespace Morpheus

/-- The byte loop of the writers, from byte `i` on. -/
def putBytes : ℕ → ℕ → UInt32 → Bytes
  | 0, _, _ => []
  | n + 1, i, value => (value >>> UInt32.ofNat (8 * i)).toUInt8 :: putBytes n (i + 1) value

def putInt32 (lword : UInt32) : Bytes := putBytes 4 0 lword

def putShort (sword : UInt16) : Bytes := putBytes 2 0 sword.toUInt32

/-- The byte loop of the readers; they give up at the end of the file. -/
def getBytes : ℕ → ℕ → UInt32 → Reader (Option UInt32)
  | 0, _, value => pure (some value)
  | n + 1, i, value => do
    match ← getc with
    | none => pure none
    | some c => getBytes n (i + 1) (value ||| c.toUInt32 <<< UInt32.ofNat (8 * i))

def getInt32 : Reader (Option UInt32) := getBytes 4 0 0

def getShort : Reader (Option UInt16) := do
  let value ← getBytes 2 0 0
  pure (value.map UInt32.toUInt16)

@[simp] theorem putBytes_length (n i : ℕ) (value : UInt32) :
    (putBytes n i value).length = n := by
  induction n generalizing i with
  | zero => rfl
  | succ n ih => simp [putBytes, ih]

@[simp] theorem putInt32_length (lword : UInt32) : (putInt32 lword).length = 4 :=
  putBytes_length 4 0 lword

@[simp] theorem putShort_length (sword : UInt16) : (putShort sword).length = 2 :=
  putBytes_length 2 0 _

/-- The bytes of a word, put together by the loop of the readers. -/
def gather : ℕ → ℕ → UInt32 → UInt32 → UInt32
  | 0, _, _, value => value
  | n + 1, i, word, value =>
    gather n (i + 1) word
      (value ||| (word >>> UInt32.ofNat (8 * i)).toUInt8.toUInt32 <<< UInt32.ofNat (8 * i))

theorem getBytes_reads (n i : ℕ) (word value : UInt32) :
    Reads (getBytes n i value) (putBytes n i word) (some (gather n i word value)) := by
  induction n generalizing i value with
  | zero => exact Reads.pure _
  | succ n ih =>
    have h := ih (i + 1)
      (value ||| (word >>> UInt32.ofNat (8 * i)).toUInt8.toUInt32 <<< UInt32.ofNat (8 * i))
    exact (Reads.getc _).bind h

/-- A byte of a word, shifted back to its place by the readers. -/
private theorem gather_bit (word : UInt32) {k : ℕ} (hk : k < 32) {i : ℕ} (hi : i < 32) :
    ((word >>> UInt32.ofNat k).toUInt8.toUInt32 <<< UInt32.ofNat k).toBitVec.getLsbD i =
      (decide (k ≤ i ∧ i < k + 8) && word.toBitVec.getLsbD i) := by
  simp only [UInt32.toBitVec_shiftLeft, UInt8.toBitVec_toUInt32, UInt32.toBitVec_toUInt8,
    UInt32.toBitVec_shiftRight]
  by_cases h : k ≤ i
  · have hadd : k + (i - k) = i := by omega
    by_cases h8 : i < k + 8
    · have : i - k < 8 := by omega
      simp [Nat.mod_eq_of_lt hk, hadd, h, h8, this, hi]
    · have : ¬ i - k < 8 := by omega
      simp [h8, Nat.mod_eq_of_lt hk, this]
  · simp [h, Nat.mod_eq_of_lt hk, Nat.lt_of_not_le h]

/-- The four bytes of a word give it back. -/
theorem gather_int32 (word : UInt32) : gather 4 0 word 0 = word := by
  apply UInt32.toBitVec_inj.mp
  apply BitVec.eq_of_getLsbD_eq
  intro i hi
  simp only [gather, UInt32.toBitVec_or, BitVec.getLsbD_or]
  rw [gather_bit _ (by norm_num) hi, gather_bit _ (by norm_num) hi,
    gather_bit _ (by norm_num) hi, gather_bit _ (by norm_num) hi]
  simp
  grind

theorem gather_short (word : UInt16) : (gather 2 0 word.toUInt32 0).toUInt16 = word := by
  apply UInt16.toBitVec_inj.mp
  apply BitVec.eq_of_getLsbD_eq
  intro i hi
  have h32 : i < 32 := by omega
  simp only [gather, UInt32.toBitVec_toUInt16, BitVec.getLsbD_setWidth, UInt32.toBitVec_or,
    BitVec.getLsbD_or]
  rw [gather_bit _ (by norm_num) h32, gather_bit _ (by norm_num) h32]
  simp [hi]
  grind

theorem getInt32_reads (lword : UInt32) : Reads getInt32 (putInt32 lword) (some lword) := by
  have h := getBytes_reads 4 0 lword 0
  rwa [gather_int32] at h

theorem getShort_reads (sword : UInt16) : Reads getShort (putShort sword) (some sword) := by
  have h := getBytes_reads 2 0 sword.toUInt32 0
  apply h.bind_pure
  rw [Option.map_some, gather_short]

end Morpheus
