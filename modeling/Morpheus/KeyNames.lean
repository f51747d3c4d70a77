import Morpheus.MorphKeys

/-!
# Names of morphological values

`SprintGkFlags` of `gkstring.c` writes the names that the key tables have for the values of a
record.
-/
namespace Morpheus

/-- The first row with a value. -/
def firstRow (flag : UInt32) (args : List MorphArgs) : Option MorphArgs :=
  if flag = 0 then none else args.find? fun mp => mp.morphFlags = flag

/-- `p_eq_morph_keys` -/
def pEqMorphKeys (flag : UInt32) (args : List MorphArgs) : Bytes :=
  ((firstRow flag args).map MorphArgs.morphKey).getD []

/-- The value of a bit-field. -/
def fieldValue {w : ℕ} (field : BitVec w) : UInt32 := UInt32.ofNat field.toNat

/-- A domain as the `char` that `DomainNames` widens. -/
def domainNumber (domain : Byte) : UInt32 :=
  if domain < 128 then domain.toUInt32 else 0xFFFFFF00 ||| domain.toUInt32

/-- The end of a list of names with one more; `none` when it does not fit. -/
def appendName (dels : Bytes) (capacity : ℕ) (res name : Bytes) : Option Bytes :=
  (if res = [] then some res else appendText res capacity dels).bind fun res =>
    appendText res capacity name

/-- `DomainNames` -/
def domainNames (tables : KeyTables) (domp dels : Bytes) (capacity : ℕ) : Option Bytes :=
  domp.foldlM (fun res p =>
    appendName dels capacity res (pEqMorphKeys (domainNumber p) tables.argDomain)) []

/-- The rows whose bits are all left, in their order. -/
def maskRows : List MorphArgs → UInt32 → List MorphArgs
  | [], _ => []
  | mp :: args, mf =>
    if mp.morphFlags ≠ 0 ∧ mf &&& mp.morphFlags = mp.morphFlags then
      mp :: maskRows args (mf &&& ~~~mp.morphFlags)
    else maskRows args mf

/-- The loop of `DialectNames` and `GeogRegionNames`. -/
def maskNames (args : List MorphArgs) (mf : UInt32) (dels : Bytes) (capacity : ℕ) : Option Bytes :=
  if mf = 0 then some []
  else (maskRows args mf).foldlM (fun res mp => appendName dels capacity res mp.morphKey) []

/-- `DialectNames`; no row has the bits that come with a sign. -/
def dialectNames (di : UInt16) (dels : Bytes) (capacity : ℕ) : Option Bytes :=
  maskNames argDialect di.toUInt32 dels capacity

/-- `GeogRegionNames` -/
def geogRegionNames (gr : UInt32) (dels : Bytes) (capacity : ℕ) : Option Bytes :=
  maskNames argGeogregion gr dels capacity

/-- `is_pretty_morphflag` for the flags that `init_ugly_tab` leaves out. -/
def isPrettyMorphflag (mnum : ℕ) : Bool :=
  !([8, 5, 6, 9, 12, 13, 14, 16, 17, 19, 20, 26].contains mnum)

/-- `MorphNames`: bit by bit the first `MORPHFLAG_BYTES` bytes. -/
def morphNames (mf : MorphFlags) (dels : Bytes) (capacity : ℕ) (pretty : Bool) : Option Bytes :=
  (List.range (8 * morphflagBytes)).foldlM (fun res k =>
    let s := pEqMorphKeys (UInt32.ofNat (k + 1)) argMorphflags
    if flagAt mf k ∧ (pretty = false ∨ isPrettyMorphflag (k + 1)) ∧ s ≠ [] then
      appendName dels capacity res s
    else some res) []

/-- `append_flag_field` -/
def appendFlagField (delimiter : Bytes) (capacity : ℕ) (buf value : Bytes) : Option Bytes :=
  (if value ≠ [] ∨ delimiter.head? = some 9 then appendText buf capacity delimiter
    else some buf).bind fun buf =>
    if value = [] then some buf else appendText buf capacity value

/-- The names of the single values of a record, in the order in which they are written. -/
def singleNames (tables : KeyTables) (gstr : GkString) : List Bytes :=
  let wf := gstr.forminfo
  [pEqMorphKeys gstr.stemtype tables.argStemtype, pEqMorphKeys gstr.derivtype tables.argDerivtype,
    pEqMorphKeys (fieldValue wf.tense) argTense, pEqMorphKeys (fieldValue wf.mood) argMood,
    pEqMorphKeys (fieldValue wf.voice) argVoice, pEqMorphKeys (fieldValue wf.gender) argGender,
    pEqMorphKeys (fieldValue wf.case_) argCase, pEqMorphKeys (fieldValue wf.degree) argDegree,
    pEqMorphKeys (fieldValue wf.person) argPerson, pEqMorphKeys (fieldValue wf.number) argNumber]

/-- `SprintGkFlags` behind what stands in the buffer. -/
def sprintGkFlags (tables : KeyTables) (gstr : GkString) (buf : Bytes) (capacity : ℕ) (dels : Bytes)
    (pretty : Bool) : Option Bytes :=
  if buf.length ≥ capacity then none
  else do
    let buf ← (singleNames tables gstr).foldlM (appendFlagField dels capacity) buf
    let dialects ← dialectNames gstr.dialect dels (2 * longString)
    let buf ← appendFlagField dels capacity buf dialects
    let regions ← geogRegionNames gstr.geogregion dels (2 * longString)
    let buf ← appendFlagField dels capacity buf regions
    let domains ← domainNames tables gstr.domains dels (2 * longString)
    let buf ← appendFlagField dels capacity buf domains
    let flags ← morphNames gstr.morphflags dels (2 * longString) pretty
    appendFlagField dels capacity buf flags

end Morpheus
