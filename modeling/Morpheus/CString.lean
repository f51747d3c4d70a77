import Morpheus.Comparison
import Mathlib.Data.List.Lex
import Mathlib.Data.List.TakeWhile
import Mathlib.Order.Lattice
import Mathlib.Tactic.Common

/-!
# Bytes and C strings

A C string is the list of its bytes before the terminating NUL. Comparison
functions of the `strcmp` family are one function with a key table; their sign
is the lexicographic order of the keys.
-/
namespace Morpheus

abbrev Byte := UInt8
abbrev Bytes := List Byte

/-- `MAXWORDSIZE`, the size of the buffer of a word. -/
def maxWordSize : ℕ := 60

/-- `LONGSTRING` -/
def longString : ℕ := 1024

/-- `MAXPATHNAME` -/
def maxPathName : ℕ := 512

/-- `INT_MAX` -/
def intMax : ℕ := 2147483647

/-- The bytes of an ASCII literal. -/
def ascii (s : String) : Bytes := s.toList.map Char.toUInt8

/-- What a C function sees of a byte sequence: everything before the first NUL. -/
def cstr (bs : Bytes) : Bytes := bs.takeWhile (· != 0)

/-- A byte list that can be the contents of a C string. -/
def NulFree (s : Bytes) : Prop := 0 ∉ s

instance (s : Bytes) : Decidable (NulFree s) := inferInstanceAs (Decidable (0 ∉ s))

@[simp] theorem nulFree_nil : NulFree [] := by simp [NulFree]

@[simp] theorem nulFree_cons {c : Byte} {s : Bytes} :
    NulFree (c :: s) ↔ c ≠ 0 ∧ NulFree s := by
  simp [NulFree, eq_comm]

@[simp] theorem nulFree_append {s t : Bytes} :
    NulFree (s ++ t) ↔ NulFree s ∧ NulFree t := by
  simp [NulFree, not_or]

theorem NulFree.sublist {s t : Bytes} (h : NulFree t) (hs : s.Sublist t) : NulFree s :=
  fun h0 => h (hs.subset h0)

theorem cstr_nulFree (bs : Bytes) : NulFree (cstr bs) := by
  intro h
  have := List.mem_takeWhile_imp h
  simp at this

@[simp] theorem cstr_append_nul {s : Bytes} (h : NulFree s) (rest : Bytes) :
    cstr (s ++ 0 :: rest) = s := by
  induction s with
  | nil => simp [cstr]
  | cons c s ih =>
    obtain ⟨hc, hs⟩ := nulFree_cons.mp h
    simpa [cstr, List.takeWhile_cons, hc] using ih hs

theorem cstr_of_nulFree {s : Bytes} (h : NulFree s) : cstr s = s := by
  apply List.takeWhile_eq_self_iff.mpr
  intro c hc
  simpa using fun h0 : c = 0 => h (h0 ▸ hc)

theorem cstr_take (bs : Bytes) (n : ℕ) : cstr (bs.take n) = (cstr bs).take n := by
  induction bs generalizing n with
  | nil => simp [cstr]
  | cons c bs ih =>
    cases n with
    | zero => simp [cstr]
    | succ n =>
      have h := ih n
      simp only [cstr] at h
      by_cases hc : c = 0 <;> simp [cstr, hc, h]

/-- A region with a NUL in it starts with its C string and the NUL. -/
theorem cstr_split {bs : Bytes} (h : 0 ∈ bs) : ∃ rest, bs = cstr bs ++ 0 :: rest := by
  induction bs with
  | nil => simp at h
  | cons c bs ih =>
    by_cases hc : c = 0
    · exact ⟨bs, by simp [cstr, hc]⟩
    · obtain ⟨rest, hr⟩ := ih (by simpa [Ne.symm hc] using h)
      refine ⟨rest, ?_⟩
      have : cstr (c :: bs) = c :: cstr bs := by simp [cstr, hc]
      rw [this, List.cons_append, ← hr]

/-- `Xstrncpy` into a buffer of `len` bytes. -/
def xstrncpy (s : Bytes) (len : ℕ) : Bytes := s.take (len - 1)

theorem xstrncpy_of_lt {s : Bytes} {len : ℕ} (h : s.length < len) : xstrncpy s len = s :=
  List.take_of_length_le (by omega)

/-- `isspace` of the C locale. -/
def isSpace (c : Byte) : Bool := c == 32 || (9 ≤ c && c ≤ 13)

/-- `isalpha` of the C locale. -/
def isAlpha (c : Byte) : Bool := (65 ≤ c && c ≤ 90) || (97 ≤ c && c ≤ 122)

/-- `tolower` of the C locale. -/
def tolower (c : Byte) : Byte := if 65 ≤ c ∧ c ≤ 90 then c + 32 else c

/-- `Is_vowel`: the short vowels and then the long ones. -/
def isVowel (c : Byte) : Bool :=
  (ascii "aeiouAEIOU").contains c || (ascii "hwHW").contains c

/-- `strcmp` under a key table: the difference of the keys at the first position
where they differ, the terminating NUL having key 0. -/
def strcmpBy (key : Byte → Byte) : Bytes → Bytes → Int
  | [], [] => 0
  | [], d :: _ => -((key d).toNat : Int)
  | c :: _, [] => (key c).toNat
  | c :: s, d :: t =>
    if key c = key d then strcmpBy key s t else ((key c).toNat : Int) - (key d).toNat

/-- `strcmp`, by the values of the bytes as `unsigned char`. -/
def strcmp (s t : Bytes) : Int := strcmpBy id s t

/-- `strncmp` under a key table. -/
def strncmpBy (key : Byte → Byte) : Nat → Bytes → Bytes → Int
  | 0, _, _ => 0
  | n + 1, s, t =>
    if key (s.headD 0) = key (t.headD 0) then
      if s = [] then 0 else strncmpBy key n s.tail t.tail
    else ((key (s.headD 0)).toNat : Int) - (key (t.headD 0)).toNat

/-- The keys of a string as numbers; comparison functions order strings by them. -/
def rank (key : Byte → Byte) (s : Bytes) : List ℕ := s.map fun c => (key c).toNat

@[simp] theorem rank_nil (key : Byte → Byte) : rank key [] = [] := rfl

@[simp] theorem rank_cons (key : Byte → Byte) (c : Byte) (s : Bytes) :
    rank key (c :: s) = (key c).toNat :: rank key s := rfl

@[simp] theorem rank_append (key : Byte → Byte) (s t : Bytes) :
    rank key (s ++ t) = rank key s ++ rank key t := by simp [rank]

theorem rank_injective {key : Byte → Byte} (hk : Function.Injective key) :
    Function.Injective (rank key) :=
  List.map_injective_iff.mpr fun _ _ h => hk (UInt8.toNat_inj.mp h)

/-- A key table that keeps NUL below every other byte. -/
def SeparatesNul (key : Byte → Byte) : Prop := ∀ c, key c = 0 ↔ c = 0

theorem separatesNul_id : SeparatesNul id := fun _ => Iff.rfl

private theorem key_toNat_pos {key : Byte → Byte} (hk : SeparatesNul key) {c : Byte}
    (hc : c ≠ 0) : 0 < (key c).toNat := by
  refine Nat.pos_of_ne_zero fun h => hc ((hk c).mp ?_)
  exact UInt8.toNat_inj.mp h

/-- The sign of a comparison is the lexicographic order of the keys. -/
theorem strcmpBy_sign {key : Byte → Byte} (hk : SeparatesNul key) {s t : Bytes}
    (hs : NulFree s) (ht : NulFree t) :
    (strcmpBy key s t < 0 ↔ rank key s < rank key t) ∧
      (strcmpBy key s t = 0 ↔ rank key s = rank key t) := by
  induction s generalizing t with
  | nil =>
    cases t with
    | nil => simp [strcmpBy]
    | cons d t =>
      have := key_toNat_pos hk (nulFree_cons.mp ht).1
      simp [strcmpBy]
      omega
  | cons c s ih =>
    cases t with
    | nil =>
      have := key_toNat_pos hk (nulFree_cons.mp hs).1
      simp [strcmpBy]
      omega
    | cons d t =>
      by_cases h : key c = key d
      · simpa [strcmpBy, h] using ih (nulFree_cons.mp hs).2 (nulFree_cons.mp ht).2
      · have hn : (key c).toNat ≠ (key d).toNat := fun he => h (UInt8.toNat_inj.mp he)
        simp [strcmpBy, h, hn, List.cons_lt_cons_iff]
        omega

theorem strcmpBy_lt {key : Byte → Byte} (hk : SeparatesNul key) {s t : Bytes}
    (hs : NulFree s) (ht : NulFree t) : strcmpBy key s t < 0 ↔ rank key s < rank key t :=
  (strcmpBy_sign hk hs ht).1

theorem strcmpBy_eq_zero {key : Byte → Byte} (hk : SeparatesNul key) {s t : Bytes}
    (hs : NulFree s) (ht : NulFree t) : strcmpBy key s t = 0 ↔ rank key s = rank key t :=
  (strcmpBy_sign hk hs ht).2

theorem strcmpBy_pos {key : Byte → Byte} (hk : SeparatesNul key) {s t : Bytes}
    (hs : NulFree s) (ht : NulFree t) : 0 < strcmpBy key s t ↔ rank key t < rank key s := by
  obtain ⟨h1, h2⟩ := strcmpBy_sign hk hs ht
  rw [← not_le, ← not_le, not_iff_not, le_iff_lt_or_eq, le_iff_lt_or_eq, h1, h2]

/-- `strncmp` compares the first `n` bytes. -/
theorem strncmpBy_eq {key : Byte → Byte} (hk : SeparatesNul key) (n : ℕ) {s t : Bytes}
    (hs : NulFree s) (ht : NulFree t) :
    strncmpBy key n s t = strcmpBy key (s.take n) (t.take n) := by
  have h0 : key 0 = 0 := (hk 0).mpr rfl
  induction n generalizing s t with
  | zero => simp [strncmpBy, strcmpBy]
  | succ n ih =>
    cases s with
    | nil =>
      cases t with
      | nil => simp [strncmpBy, strcmpBy]
      | cons d t =>
        have hd : key d ≠ 0 := fun h => (nulFree_cons.mp ht).1 ((hk d).mp h)
        simp [strncmpBy, strcmpBy, h0, hd.symm]
    | cons c s =>
      obtain ⟨hc, hs⟩ := nulFree_cons.mp hs
      cases t with
      | nil =>
        have hc' : key c ≠ 0 := fun h => hc ((hk c).mp h)
        simp [strncmpBy, strcmpBy, h0, hc']
      | cons d t =>
        have h := ih hs (nulFree_cons.mp ht).2
        simp [strncmpBy, strcmpBy, h]

theorem NulFree.take {s : Bytes} (h : NulFree s) (n : ℕ) : NulFree (s.take n) :=
  h.sublist (List.take_sublist n s)

@[simp] theorem rank_take (key : Byte → Byte) (n : ℕ) (s : Bytes) :
    rank key (s.take n) = (rank key s).take n := by simp [rank]

@[simp] theorem rank_length (key : Byte → Byte) (s : Bytes) :
    (rank key s).length = s.length := by simp [rank]

theorem strcmp_eq_zero {s t : Bytes} (hs : NulFree s) (ht : NulFree t) :
    strcmp s t = 0 ↔ s = t := by
  rw [strcmp, strcmpBy_eq_zero separatesNul_id hs ht]
  exact (rank_injective Function.injective_id).eq_iff

/-- `strcmp` is the order of the bytes. -/
theorem strcmp_agrees {s t : Bytes} (hs : NulFree s) (ht : NulFree t) :
    Comparison.Agrees (strcmp s t) (rank id s) (rank id t) := by
  obtain ⟨hlt, heq⟩ := strcmpBy_sign separatesNul_id hs ht
  exact ⟨hlt, heq⟩

end Morpheus
