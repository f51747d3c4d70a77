import Morpheus.CString
import Mathlib.Data.List.DropRight

/-!
# Strings of code units

Strings as a script engine keeps them: sequences of 16-bit code units, trimmed by
their white space and encoded as UTF-8 where bytes are wanted. ASCII bytes are the
same text in both kinds of string.
-/
namespace Morpheus

abbrev ScriptString := List UInt16

/-- White space and line terminators, as `trim` removes them. -/
def scriptSpaces : List UInt16 :=
  [9, 10, 11, 12, 13, 32, 0xA0, 0x1680, 0x2000, 0x2001, 0x2002, 0x2003, 0x2004, 0x2005, 0x2006,
    0x2007, 0x2008, 0x2009, 0x200A, 0x2028, 0x2029, 0x202F, 0x205F, 0x3000, 0xFEFF]

def isScriptSpace (c : UInt16) : Bool := scriptSpaces.contains c

def scriptTrim (s : ScriptString) : ScriptString :=
  (s.dropWhile isScriptSpace).rdropWhile isScriptSpace

def isHighSurrogate (c : UInt16) : Bool := 0xD800 ≤ c && c < 0xDC00

def isLowSurrogate (c : UInt16) : Bool := 0xDC00 ≤ c && c < 0xE000

/-- The UTF-8 bytes of a code point. -/
def utf8Bytes (point : ℕ) : Bytes :=
  if point < 0x80 then [UInt8.ofNat point]
  else if point < 0x800 then
    [UInt8.ofNat (0xC0 + point / 0x40), UInt8.ofNat (0x80 + point % 0x40)]
  else if point < 0x10000 then
    [UInt8.ofNat (0xE0 + point / 0x1000), UInt8.ofNat (0x80 + point / 0x40 % 0x40),
      UInt8.ofNat (0x80 + point % 0x40)]
  else
    [UInt8.ofNat (0xF0 + point / 0x40000), UInt8.ofNat (0x80 + point / 0x1000 % 0x40),
      UInt8.ofNat (0x80 + point / 0x40 % 0x40), UInt8.ofNat (0x80 + point % 0x40)]

/-- The code points of a string; a lone surrogate counts as the replacement character. -/
def codePoints : ScriptString → List ℕ
  | [] => []
  | c :: s =>
    if isHighSurrogate c then
      match s with
      | [] => [0xFFFD]
      | d :: rest =>
        if isLowSurrogate d then
          (0x10000 + (c.toNat - 0xD800) * 0x400 + (d.toNat - 0xDC00)) :: codePoints rest
        else 0xFFFD :: codePoints (d :: rest)
    else if isLowSurrogate c then 0xFFFD :: codePoints s
    else c.toNat :: codePoints s

/-- What an encoder makes of a string. -/
def encodeString (s : ScriptString) : Bytes := (codePoints s).flatMap utf8Bytes

/-- Bytes below 128 as a string, each its own code unit. -/
def units (s : Bytes) : ScriptString := s.map (·.toUInt16)

def Ascii (s : Bytes) : Prop := ∀ c ∈ s, c < 128

instance (s : Bytes) : Decidable (Ascii s) := List.decidableBAll (· < 128) s

@[simp] theorem units_nil : units [] = [] := rfl

@[simp] theorem units_cons (c : Byte) (s : Bytes) : units (c :: s) = c.toUInt16 :: units s := rfl

@[simp] theorem units_append (s t : Bytes) : units (s ++ t) = units s ++ units t :=
  List.map_append

@[simp] theorem units_length (s : Bytes) : (units s).length = s.length := List.length_map _

@[simp] theorem units_eq_nil {s : Bytes} : units s = [] ↔ s = [] := List.map_eq_nil_iff

theorem units_take (n : ℕ) (s : Bytes) : units (s.take n) = (units s).take n := List.map_take

theorem units_drop (n : ℕ) (s : Bytes) : units (s.drop n) = (units s).drop n := List.map_drop

theorem toUInt16_inj {c d : Byte} : c.toUInt16 = d.toUInt16 ↔ c = d := by
  rw [← UInt16.toNat_inj, ← UInt8.toNat_inj, UInt8.toNat_toUInt16, UInt8.toNat_toUInt16]

theorem units_inj {s t : Bytes} : units s = units t ↔ s = t :=
  (List.map_injective_iff.mpr fun _ _ h => toUInt16_inj.mp h).eq_iff

/-- Strings of bytes are ordered like the bytes. -/
theorem units_lt {s t : Bytes} : units s < units t ↔ rank id s < rank id t := by
  induction s generalizing t with
  | nil => cases t <;> simp
  | cons c s ih =>
    cases t with
    | nil => simp
    | cons d t =>
      simp only [units_cons, rank_cons, List.cons_lt_cons_iff, ih, toUInt16_inj, id,
        UInt8.toNat_inj]
      simp [UInt16.lt_iff_toNat_lt]

/-- A predicate on code units that bytes below 128 see as one on bytes. -/
def ReadsAs (p : UInt16 → Bool) (q : Byte → Bool) (s : Bytes) : Prop :=
  ∀ c ∈ s, p c.toUInt16 = q c

theorem ReadsAs.sublist {p : UInt16 → Bool} {q : Byte → Bool} {s t : Bytes} (h : ReadsAs p q t)
    (hs : s.Sublist t) : ReadsAs p q s := fun c hc => h c (hs.subset hc)

section
variable {p : UInt16 → Bool} {q : Byte → Bool} {s : Bytes}

theorem units_takeWhile (h : ReadsAs p q s) : (units s).takeWhile p = units (s.takeWhile q) := by
  induction s with
  | nil => rfl
  | cons c s ih =>
    have hc := h c (by simp)
    have ih := ih (h.sublist (List.sublist_cons_self c s))
    cases hq : q c <;> simp [hc, hq, ih]

theorem units_dropWhile (h : ReadsAs p q s) : (units s).dropWhile p = units (s.dropWhile q) := by
  induction s with
  | nil => rfl
  | cons c s ih =>
    have hc := h c (by simp)
    have ih := ih (h.sublist (List.sublist_cons_self c s))
    cases hq : q c <;> simp [hc, hq, ih]

theorem units_filter (h : ReadsAs p q s) : (units s).filter p = units (s.filter q) := by
  induction s with
  | nil => rfl
  | cons c s ih =>
    have hc := h c (by simp)
    have ih := ih (h.sublist (List.sublist_cons_self c s))
    cases hq : q c <;> simp [hc, hq, ih]

theorem units_rdropWhile (h : ReadsAs p q s) :
    (units s).rdropWhile p = units (s.rdropWhile q) := by
  have hr : ReadsAs p q s.reverse := fun c hc => h c (List.mem_reverse.mp hc)
  have := units_dropWhile hr
  simp only [units] at this
  simp only [units, List.rdropWhile, ← List.map_reverse, this]

end

theorem isScriptSpace_byte {c : Byte} (h : c < 128) : isScriptSpace c.toUInt16 = isSpace c := by
  have key : ∀ n : Fin 128, isScriptSpace (UInt8.ofNat n).toUInt16 = isSpace (UInt8.ofNat n) := by
    decide +kernel
  have hn : c.toNat < 128 := UInt8.lt_iff_toNat_lt.mp h
  simpa using key ⟨c.toNat, hn⟩

theorem codePoints_cons {c : UInt16} {s : ScriptString} (hh : isHighSurrogate c = false)
    (hl : isLowSurrogate c = false) : codePoints (c :: s) = c.toNat :: codePoints s := by
  cases s <;> simp [codePoints, hh, hl]

theorem codePoints_units {s : Bytes} (h : Ascii s) : codePoints (units s) = s.map (·.toNat) := by
  induction s with
  | nil => rfl
  | cons c s ih =>
    have hc : c.toUInt16 < 0xD800 := by
      have := c.toNat_lt
      rw [UInt16.lt_iff_toNat_lt, UInt8.toNat_toUInt16]
      exact this.trans (by decide)
    have hhigh : isHighSurrogate c.toUInt16 = false := by
      simp [isHighSurrogate, UInt16.not_le.mpr hc]
    have hlow : isLowSurrogate c.toUInt16 = false := by
      have : c.toUInt16 < 0xDC00 := UInt16.lt_trans hc (by decide)
      simp [isLowSurrogate, UInt16.not_le.mpr this]
    rw [units_cons, codePoints_cons hhigh hlow, ih fun d hd => h d (by simp [hd])]
    simp

/-- The encoder writes ASCII text as it is. -/
theorem encodeString_units {s : Bytes} (h : Ascii s) : encodeString (units s) = s := by
  rw [encodeString, codePoints_units h, List.flatMap_map]
  induction s with
  | nil => rfl
  | cons c s ih =>
    have hc : c.toNat < 128 := UInt8.lt_iff_toNat_lt.mp (h c (by simp))
    rw [List.flatMap_cons, ih fun d hd => h d (by simp [hd])]
    simp [utf8Bytes, hc]

end Morpheus
