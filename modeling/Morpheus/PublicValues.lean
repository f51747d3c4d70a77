import Morpheus.GkString
import Mathlib.Tactic.FinCases

/-!
# Public values

The bridge of `legacy_values.c` between the engine's encodings of dialect, region,
part of speech and the inflectional categories and the constants of the public
interface.
-/
namespace Morpheus

/-- `MORPHEUS_TEXT_CAPACITY` -/
def textCapacity : ℕ := 64

/-- A run of `MAP_BIT` lines: the bit that each one tests and the bit that it sets. -/
def mapBits (bits : List (UInt32 × UInt32)) (legacy : UInt32) : UInt32 :=
  bits.foldl (fun result bit => if legacy &&& bit.1 ≠ 0 then result ||| bit.2 else result) 0

/-- The dialects of `dialect.h` and of the public header, in the order of the bridge:
aeolic, attic, doric, homeric, ionic, lesbian, non-homeric epic, paradigm, prose. -/
def dialectBits : List (UInt32 × UInt32) :=
  [(0o20, 1), (0o2, 2), (0o200, 4), (0o100, 8), (0o10, 16), (0o40, 32), (0o2000, 64),
    (0o400, 128), (0o4000, 256)]

def morpheusPublicDialect (legacy : UInt32) : UInt32 := mapBits dialectBits legacy

def morpheusLegacyDialect (publicValue : UInt32) : UInt32 :=
  mapBits (dialectBits.map Prod.swap) publicValue

/-- `MORPHEUS_DIALECT_KNOWN_MASK` -/
def dialectKnownMask : UInt32 := 511

/-- Arcadia, Argolid, Boeotia, Cos, Crete, Cyprus, Cyrene, Elis, Heraclea, Laconia,
Locris, Megarid, Phocis, Rhodes, Thera. -/
def morpheusPublicRegion (legacy : UInt32) : UInt32 :=
  mapBits [(0o20000, 1), (0o200, 2), (0o100000, 4), (0o1000, 8), (0o10000, 16), (0o40000, 32),
    (0o4000, 64), (0o4, 128), (0o40, 256), (0o20, 512), (0o2, 1024), (0o100, 2048), (0o1, 4096),
    (0o400, 8192), (0o2000, 16384)] legacy

/-- A `switch` on an engine value, 0 by default. -/
def mapValue (cases : List (UInt32 × UInt32)) (legacy : UInt32) : UInt32 :=
  (cases.lookup legacy).getD 0

def morpheusPublicPerson (legacy : UInt32) : UInt32 := mapValue [(1, 1), (2, 2), (4, 3)] legacy

def morpheusPublicNumber (legacy : UInt32) : UInt32 := mapValue [(1, 1), (2, 2), (4, 3)] legacy

/-- Adverbial, feminine, masculine, neuter. -/
def morpheusPublicGender (legacy : UInt32) : UInt32 :=
  mapBits [(0o10, 1), (0o2, 2), (0o1, 4), (0o4, 8)] legacy

/-- Ablative, accusative, dative, genitive, nominative, vocative. -/
def morpheusPublicCase (legacy : UInt32) : UInt32 :=
  mapBits [(0o40, 1), (0o10, 2), (0o4, 4), (0o2, 8), (0o1, 16), (0o20, 32)] legacy

/-- Present, imperfect, future, aorist, perfect, pluperfect, future perfect, past absolute;
`SECONDARY` is the bit 8. -/
def morpheusPublicTense (legacy : UInt32) : UInt32 :=
  mapValue [(1, 1), (10, 2), (3, 3), (12, 4), (5, 5), (6, 6), (15, 7), (8, 8)] legacy

/-- Conditional, gerundive, imperative, indicative, infinitive, optative, participle,
subjunctive, supine. -/
def morpheusPublicMood (legacy : UInt32) : UInt32 :=
  mapValue [(9, 1), (7, 2), (4, 3), (1, 4), (5, 5), (3, 6), (6, 7), (2, 8), (8, 9)] legacy

/-- Active, passive, middle. -/
def morpheusPublicVoice (legacy : UInt32) : UInt32 :=
  mapBits [(0o1, 1), (0o4, 2), (0o2, 4)] legacy

inductive PartOfSpeech
  | unknown
  | noun
  | verb
  | adjective
  | adverb
  | article
  | pronoun
  | numeral
  | preposition
  | conjunction
  | particle
  | interjection
  deriving DecidableEq, Repr

def PartOfSpeech.code : PartOfSpeech → UInt32
  | unknown => 0
  | noun => 1
  | verb => 2
  | adjective => 3
  | adverb => 4
  | article => 5
  | pronoun => 6
  | numeral => 7
  | preposition => 8
  | conjunction => 9
  | particle => 10
  | interjection => 11

/-- `PPARTMASK` -/
def ppartMask : UInt32 := 0o70000000

/-- `ADJSTEM` -/
def adjStem : UInt32 := 0o4000

/-- `NOUNSTEM` -/
def nounStem : UInt32 := 0o10000

/-- The stem types that a name decides, in the order of the tests. -/
def stemTypeNames : List (String × PartOfSpeech) :=
  [("adverb", .adverb), ("article", .article), ("demonstr", .pronoun), ("indef", .pronoun),
    ("indef_pron", .pronoun), ("indef_rel_pron", .pronoun), ("interrog", .pronoun),
    ("pers_pron", .pronoun), ("pron1", .pronoun), ("pron3", .pronoun), ("pron_adj1", .pronoun),
    ("pron_adj3", .pronoun), ("relative", .pronoun), ("rel_pron", .pronoun),
    ("numeral", .numeral), ("prep", .preposition), ("conj", .conjunction),
    ("connect", .conjunction), ("particle", .particle), ("expletive", .particle),
    ("exclam", .interjection), ("alphabetic", .noun), ("indecl_noun", .noun),
    ("irreg_decl3", .noun), ("indecl", .unknown)]

/-- `morpheus_public_part_of_speech`, over the names of the stem types. -/
def morpheusPublicPartOfSpeech (nameOfStemtype : UInt32 → Option Bytes) (stemtype : UInt32) :
    PartOfSpeech :=
  if stemtype &&& ppartMask ≠ 0 then .verb
  else
    match stemTypeNames.find? fun named => nameOfStemtype stemtype = some (ascii named.1) with
    | some named => named.2
    | none =>
      if stemtype &&& nounStem ≠ 0 then .noun
      else if stemtype &&& adjStem ≠ 0 then .adjective
      else .unknown

/-- `IRREG_SUPERL` -/
def irregSuperl : ℕ := 10

/-- `IRREG_COMP` -/
def irregComp : ℕ := 11

/-- `legacy_flag_is_set` -/
def legacyFlagIsSet (flags : MorphFlags) (number : ℕ) : Bool := flagAt flags (number - 1)

def morpheusPublicDegree (legacy : UInt32) (partOfSpeech : PartOfSpeech) (flags : MorphFlags) :
    UInt32 :=
  if legacy = 1 ∨ legacyFlagIsSet flags irregComp then 2
  else if legacy = 2 ∨ legacyFlagIsSet flags irregSuperl then 3
  else if partOfSpeech = .adjective then 1
  else 0

/-- The engine's number of each public trait, by the public index. -/
def morphFlagMappings : List ℕ :=
  [16, 80, 79, 9, 24, 47, 54, 2, 7, 82, 46, 63, 37, 22, 67, 61, 62, 41, 34, 3, 65, 78, 59, 66,
    110, 26, 20, 51, 35, 29, 55, 68, 11, 25, 10, 4, 38, 60, 14, 69, 33, 73, 81, 17, 52, 19, 53,
    12, 48, 28, 49, 76, 8, 31, 64, 30, 23, 58, 72, 74, 27, 39, 40, 57, 15, 44, 18, 36, 71, 13,
    42, 70, 6, 5, 1, 50, 83, 56, 43, 21, 45, 32, 77, 75]

/-- The public trait bytes, `MORPHEUS_MORPH_FLAG_CAPACITY` of them. -/
abbrev PublicFlags := Fin 11 → Byte

/-- One turn of the loop over the mappings; the table has 84 rows. -/
def setPublicFlag (flags : MorphFlags) (destination : PublicFlags) (mapping : ℕ × ℕ) :
    PublicFlags :=
  if legacyFlagIsSet flags mapping.1 then fun byte =>
    if (byte : ℕ) = mapping.2 / 8 then
      destination byte ||| 1 <<< UInt8.ofNat (mapping.2 % 8)
    else destination byte
  else destination

def morpheusPublicMorphFlags (flags : MorphFlags) : PublicFlags :=
  morphFlagMappings.zipIdx.foldl (setPublicFlag flags) fun _ => 0

/-- The public trait `index`. -/
def publicFlagAt (flags : PublicFlags) (index : ℕ) : Bool :=
  if h : index < 88 then (flags ⟨index / 8, by omega⟩).toBitVec.getLsbD (index % 8) else false

theorem mapBits_and (bits : List (UInt32 × UInt32)) {mask : UInt32}
    (h : ∀ bit ∈ bits, bit.1 &&& mask = bit.1) (legacy : UInt32) :
    mapBits bits (legacy &&& mask) = mapBits bits legacy := by
  unfold mapBits
  apply List.foldl_ext
  intro result bit hbit
  have hsame : legacy &&& mask &&& bit.1 = legacy &&& bit.1 := by
    rw [UInt32.and_assoc, UInt32.and_comm mask, h bit hbit]
  rw [hsame]

/-- The known dialects of a request reach the engine and come back. -/
theorem morpheusPublicDialect_legacy (publicValue : UInt32) :
    morpheusPublicDialect (morpheusLegacyDialect publicValue) =
      publicValue &&& dialectKnownMask := by
  have hmasked : morpheusLegacyDialect (publicValue &&& dialectKnownMask) =
      morpheusLegacyDialect publicValue := by
    have hbits : (dialectBits.map Prod.swap).all fun bit =>
        bit.1 &&& dialectKnownMask == bit.1 := by
      decide
    apply mapBits_and
    intro bit hbit
    exact beq_iff_eq.mp (List.all_eq_true.mp hbits bit hbit)
  have hall : (List.range 512).all (fun i =>
      morpheusPublicDialect (morpheusLegacyDialect (UInt32.ofNat i)) == UInt32.ofNat i) := by
    decide +kernel
  have hlt : (publicValue &&& dialectKnownMask).toNat < 512 := by
    rw [UInt32.toNat_and]
    exact Nat.and_lt_two_pow _ (n := 9) (by decide)
  have hvalue := beq_iff_eq.mp (List.all_eq_true.mp hall _ (List.mem_range.mpr hlt))
  rw [UInt32.ofNat_toNat, hmasked] at hvalue
  exact hvalue

private theorem bit_getLsbD {i j : ℕ} (hi : i < 8) (hj : j < 8) :
    ((1 : UInt8) <<< UInt8.ofNat j).toBitVec.getLsbD i = decide (i = j) := by
  have hall : ∀ i j : Fin 8, ((1 : UInt8) <<< UInt8.ofNat j).toBitVec.getLsbD i =
      decide (i = j) := by
    decide +kernel
  simpa using hall ⟨i, hi⟩ ⟨j, hj⟩

theorem publicFlagAt_set (flags : MorphFlags) (destination : PublicFlags) (mapping : ℕ × ℕ)
    {index : ℕ} (h : index < 88) :
    publicFlagAt (setPublicFlag flags destination mapping) index =
      (publicFlagAt destination index ||
        (legacyFlagIsSet flags mapping.1 && decide (mapping.2 = index))) := by
  unfold setPublicFlag
  cases hset : legacyFlagIsSet flags mapping.1 with
  | false => simp
  | true =>
    simp only [↓reduceIte, publicFlagAt, h, ↓reduceDIte, Bool.true_and]
    by_cases hbyte : index / 8 = mapping.2 / 8
    · have hsame : (mapping.2 = index) ↔ index % 8 = mapping.2 % 8 := by omega
      rw [if_pos hbyte, UInt8.toBitVec_or, BitVec.getLsbD_or,
        bit_getLsbD (Nat.mod_lt _ (by norm_num)) (Nat.mod_lt _ (by norm_num))]
      simp only [hsame]
    · have hne : mapping.2 ≠ index := fun heq => hbyte (by rw [heq])
      rw [if_neg hbyte]
      simp [hne]

theorem publicFlagAt_foldl (flags : MorphFlags) (mappings : List (ℕ × ℕ))
    (destination : PublicFlags) {index : ℕ} (h : index < 88) :
    publicFlagAt (mappings.foldl (setPublicFlag flags) destination) index =
      (publicFlagAt destination index ||
        mappings.any fun mapping => legacyFlagIsSet flags mapping.1 && mapping.2 = index) := by
  induction mappings generalizing destination with
  | nil => simp
  | cons mapping mappings ih =>
    rw [List.foldl_cons, ih, publicFlagAt_set flags destination mapping h, List.any_cons,
      Bool.or_assoc]

/-- A public trait is set exactly when the engine's flag of that trait is. -/
theorem publicFlagAt_morphFlags (flags : MorphFlags) {index : ℕ}
    (h : index < morphFlagMappings.length) :
    publicFlagAt (morpheusPublicMorphFlags flags) index =
      legacyFlagIsSet flags morphFlagMappings[index] := by
  have h88 : index < 88 := by
    have hlen : morphFlagMappings.length = 84 := rfl
    omega
  have hzero : publicFlagAt (fun _ => 0) index = false := by
    simp [publicFlagAt]
  rw [morpheusPublicMorphFlags, publicFlagAt_foldl flags _ _ h88, hzero, Bool.false_or,
    Bool.eq_iff_iff, List.any_eq_true]
  constructor
  · intro hany
    obtain ⟨mapping, hmem, hset⟩ := hany
    obtain ⟨hflag, hindex⟩ : legacyFlagIsSet flags mapping.1 = true ∧ mapping.2 = index := by
      simpa using hset
    have hget := (List.mem_zipIdx' hmem).2
    rw [hget] at hflag
    simpa only [hindex] using hflag
  · intro hflag
    have hmem : (morphFlagMappings[index], index) ∈ morphFlagMappings.zipIdx := by
      rw [List.mk_mem_zipIdx_iff_getElem?]
      exact List.getElem?_eq_getElem h
    exact ⟨_, hmem, by simp [hflag]⟩

end Morpheus
