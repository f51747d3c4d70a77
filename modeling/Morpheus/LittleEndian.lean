import Morpheus.CString
import Mathlib.Tactic.Ring

/-!
# Little-endian fields in byte sequences

Fixed-width fields, and tables of entries of one width laid end to end.
-/
namespace Morpheus

/-- The `w` low bytes of `n`, least significant first. -/
def leBytes : ℕ → ℕ → Bytes
  | 0, _ => []
  | w + 1, n => UInt8.ofNat n :: leBytes w (n / 256)

/-- The number read from high to low with `value = (value << 8) | byte`. -/
def leValue (bs : Bytes) : ℕ := bs.foldr (fun b value => value * 256 + b.toNat) 0

@[simp] theorem leBytes_length (w n : ℕ) : (leBytes w n).length = w := by
  induction w generalizing n with
  | zero => rfl
  | succ w ih => simp [leBytes, ih]

theorem leValue_leBytes (w n : ℕ) : leValue (leBytes w n) = n % 256 ^ w := by
  induction w generalizing n with
  | zero => simp [leBytes, leValue, Nat.mod_one]
  | succ w ih =>
    have h : leValue (leBytes (w + 1) n) = leValue (leBytes w (n / 256)) * 256 + n % 256 := by
      simp [leBytes, leValue]
    rw [h, ih, pow_succ', Nat.mod_mul]
    omega

theorem leValue_leBytes_of_lt {w n : ℕ} (h : n < 256 ^ w) : leValue (leBytes w n) = n := by
  rw [leValue_leBytes, Nat.mod_eq_of_lt h]

theorem leValue_lt (bs : Bytes) : leValue bs < 256 ^ bs.length := by
  induction bs with
  | nil => simp [leValue]
  | cons b bs ih =>
    have hb : b.toNat < 256 := b.toNat_lt
    simp only [leValue, List.foldr_cons, List.length_cons, pow_succ] at ih ⊢
    omega

@[simp] theorem leValue_replicate_zero (n : ℕ) : leValue (List.replicate n 0) = 0 := by
  induction n with
  | zero => rfl
  | succ n ih =>
    simp only [leValue, List.replicate_succ, List.foldr_cons] at ih ⊢
    simp [ih]

/-- The `n` bytes from position `at`. -/
def slice (bs : Bytes) (start n : ℕ) : Bytes := (bs.drop start).take n

theorem slice_append_left {as bs : Bytes} {start n : ℕ} (h : start + n ≤ as.length) :
    slice (as ++ bs) start n = slice as start n := by
  simp only [slice]
  rw [List.drop_append_of_le_length (by omega), List.take_append_of_le_length]
  simp only [List.length_drop]
  omega

theorem slice_append_right (as bs : Bytes) (start n : ℕ) :
    slice (as ++ bs) (as.length + start) n = slice bs start n := by
  have : as.drop (as.length + start) = [] := List.drop_eq_nil_of_le (by omega)
  simp [slice, List.drop_append, this]

theorem slice_slice {bs : Bytes} {start n i k : ℕ} (h : i + k ≤ n) :
    slice (slice bs start n) i k = slice bs (start + i) k := by
  simp only [slice, List.drop_take, List.take_take, List.drop_drop]
  congr 1
  omega

@[simp] theorem slice_all (bs : Bytes) : slice bs 0 bs.length = bs := by simp [slice]

/-- The first part of a slice that is known. -/
theorem slice_of_slice {bs x : Bytes} {start n i k : ℕ} (h : slice bs start n = x)
    (hk : i + k ≤ n) : slice bs (start + i) k = slice x i k := by
  rw [← h, slice_slice hk]

/-- A slice inside one part of a concatenation. -/
theorem slice_section (before bs after : Bytes) {i n start : ℕ} (hs : start = before.length + i)
    (h : i + n ≤ bs.length) : slice (before ++ bs ++ after) start n = slice bs i n := by
  rw [hs, List.append_assoc, slice_append_right, slice_append_left h]

/-- A whole part of a concatenation. -/
theorem slice_part (before bs after : Bytes) {n start : ℕ} (hs : start = before.length)
    (hn : n = bs.length) : slice (before ++ bs ++ after) start n = bs := by
  rw [slice_section before bs after (i := 0) (by simpa using hs) (by omega), hn, slice_all]

theorem leValue_slice_lt (bs : Bytes) (start n : ℕ) : leValue (slice bs start n) < 256 ^ n :=
  (leValue_lt _).trans_le (Nat.pow_le_pow_right (by norm_num) (by simp [slice]))

/-- A table of entries of one width: entry `i` is the slice at `i` times the width. -/
theorem slice_flatMap {α : Type*} {encode : α → Bytes} {w : ℕ} {l : List α}
    (hw : ∀ a ∈ l, (encode a).length = w) {i : ℕ} (hi : i < l.length) :
    slice (l.flatMap encode) (i * w) w = encode l[i] := by
  induction l generalizing i with
  | nil => simp at hi
  | cons a l ih =>
    have ha := hw a (by simp)
    rw [List.flatMap_cons]
    cases i with
    | zero =>
      rw [Nat.zero_mul, slice_append_left (by simp [ha])]
      simpa [ha] using slice_all (encode a)
    | succ i =>
      have h := slice_append_right (encode a) (l.flatMap encode) (i * w) w
      rw [ha, show w + i * w = (i + 1) * w by ring] at h
      rw [h]
      exact ih (fun b hb => hw b (by simp [hb])) (by simpa using hi)

theorem flatMap_length {α : Type*} {encode : α → Bytes} {w : ℕ} {l : List α}
    (hw : ∀ a ∈ l, (encode a).length = w) : (l.flatMap encode).length = l.length * w := by
  induction l with
  | nil => simp
  | cons a l ih =>
    simp [ih fun b hb => hw b (by simp [hb]), hw a]
    ring

/-- Bytes at the start of a zeroed area. -/
def fill (bs : Bytes) (size : ℕ) : Bytes := bs ++ List.replicate (size - bs.length) 0

theorem fill_length {bs : Bytes} {size : ℕ} (h : bs.length ≤ size) :
    (fill bs size).length = size := by
  simp [fill]
  omega

theorem fill_full {bs : Bytes} {size : ℕ} (h : size = bs.length) : fill bs size = bs := by
  simp [fill, h]

/-- Zeros that belong to an entry are already there. -/
theorem fill_zeros {bs : Bytes} {n size : ℕ} (h : bs.length + n ≤ size) :
    fill (bs ++ List.replicate n 0) size = fill bs size := by
  simp only [fill, List.append_assoc, ← List.replicate_add, List.length_append,
    List.length_replicate]
  congr 2
  omega

@[simp] theorem cstr_fill {s : Bytes} (h : NulFree s) (size : ℕ) : cstr (fill s size) = s := by
  cases hn : size - s.length with
  | zero => simp [fill, hn, cstr_of_nulFree h]
  | succ n => simp [fill, hn, List.replicate_succ, cstr_append_nul h]

end Morpheus
