import Morpheus.Binlook
import Morpheus.Comparison
import Morpheus.EndingRetrieval
import Morpheus.StemTypes

/-!
# Morphological keys

The key tables of `morphkeys.h` and `morphkeys.c`, the functions of `new_val.c` that a key calls,
and `ScanAsciiKeys`, which reads a list of keys into a record.
-/
namespace Morpheus

/-- Which function of `new_val.c` a key calls. -/
inductive KeyField
  | stemtype | derivtype | domain | degree | person | gender | case_ | number | tense | voice
  | mood | dialect | region | morphflags
  deriving DecidableEq

/-- `Morph_args` -/
structure MorphArgs where
  morphKey : Bytes
  morphFlags : UInt32
  addVal : KeyField
  deriving DecidableEq

section Setters
variable (gstr : GkString) (val : UInt32)

/-- `new_person` -/
def newPerson : GkString :=
  { gstr with forminfo := { gstr.forminfo with person := BitVec.ofNat 3 val.toNat } }

/-- `new_number` -/
def newNumber : GkString :=
  { gstr with forminfo := { gstr.forminfo with number := BitVec.ofNat 3 val.toNat } }

/-- `new_case` -/
def newCase : GkString :=
  { gstr with forminfo := { gstr.forminfo with
      case_ := gstr.forminfo.case_ ||| BitVec.ofNat 6 val.toNat } }

/-- `new_tense` -/
def newTense : GkString :=
  { gstr with forminfo := { gstr.forminfo with tense := BitVec.ofNat 4 val.toNat } }

/-- The voice that `new_voice` makes of the present one. -/
def joinedVoice (present voice : BitVec 3) : BitVec 3 :=
  if voice = 1 ∧ present &&& 6 ≠ 0 then voice
  else if voice &&& 6 ≠ 0 ∧ present = 1 then voice
  else present ||| voice

/-- `new_voice` -/
def newVoice : GkString :=
  { gstr with forminfo := { gstr.forminfo with
      voice := joinedVoice gstr.forminfo.voice (BitVec.ofNat 3 val.toNat) } }

/-- `new_mood` -/
def newMood : GkString :=
  { gstr with forminfo := { gstr.forminfo with mood := BitVec.ofNat 4 val.toNat } }

/-- `new_degree` -/
def newDegree : GkString :=
  { gstr with forminfo := { gstr.forminfo with degree := BitVec.ofNat 2 val.toNat } }

/-- `new_gender` -/
def newGender : GkString :=
  { gstr with forminfo := { gstr.forminfo with
      gender := gstr.forminfo.gender ||| BitVec.ofNat 4 val.toNat } }

/-- `new_dialect` -/
def newDialect : GkString := { gstr with dialect := gstr.dialect ||| val.toUInt16 }

/-- `new_region` -/
def newRegion : GkString := { gstr with geogregion := gstr.geogregion ||| val }

/-- `new_morphflags`; a number that is negative as an `int` is above `MORPHFLAG_MAX`. -/
def newMorphflags : GkString := { gstr with morphflags := addMorphflag gstr.morphflags val.toNat }

/-- `new_stemtype` -/
def newStemtype : GkString := { gstr with stemtype := val }

/-- `new_domain`; a number that is negative as an `int` is above `UCHAR_MAX`. -/
def newDomain : GkString := { gstr with domains := (addDomain gstr.domains val.toNat).1 }

/-- `new_derivtype` -/
def newDerivtype : GkString := { gstr with derivtype := val }

end Setters

/-- What the function of a key does. -/
def MorphArgs.add (mp : MorphArgs) (gstr : GkString) : GkString :=
  match mp.addVal with
  | .stemtype => newStemtype gstr mp.morphFlags
  | .derivtype => newDerivtype gstr mp.morphFlags
  | .domain => newDomain gstr mp.morphFlags
  | .degree => newDegree gstr mp.morphFlags
  | .person => newPerson gstr mp.morphFlags
  | .gender => newGender gstr mp.morphFlags
  | .case_ => newCase gstr mp.morphFlags
  | .number => newNumber gstr mp.morphFlags
  | .tense => newTense gstr mp.morphFlags
  | .voice => newVoice gstr mp.morphFlags
  | .mood => newMood gstr mp.morphFlags
  | .dialect => newDialect gstr mp.morphFlags
  | .region => newRegion gstr mp.morphFlags
  | .morphflags => newMorphflags gstr mp.morphFlags

/-- The rows of a table. -/
def keyArgs (addVal : KeyField) (rows : List (Bytes × UInt32)) : List MorphArgs :=
  rows.map fun row => ⟨row.1, row.2, addVal⟩

/-- The rows of a table of the header. -/
def namedArgs (addVal : KeyField) (rows : List (String × UInt32)) : List MorphArgs :=
  keyArgs addVal (rows.map fun row => (ascii row.1, row.2))

/-- `arg_degree` -/
def argDegree : List MorphArgs :=
  namedArgs .degree [("comp", 1), ("comparative", 1), ("superl", 2), ("superlative", 2)]

/-- `arg_person` -/
def argPerson : List MorphArgs :=
  namedArgs .person [("1st", 1), ("first", 1), ("pers1", 1), ("2nd", 2), ("second", 2),
    ("pers2", 2), ("3rd", 4), ("third", 4), ("pers3", 4)]

/-- `arg_morphflags` -/
def argMorphflags : List MorphArgs :=
  namedArgs .morphflags [("syll_augment", 1), ("syll_aug", 1), ("comp_only", 2),
    ("not_in_comp", 19), ("enclitic", 3), ("proclitic", 23), ("iterative", 4), ("ant_acc", 9),
    ("stem_acc", 6), ("pen_acc", 6), ("suff_acc", 5), ("ult_acc", 5), ("rec_acc", 15),
    ("needs_acc", 17), ("contr", 7), ("contracted", 7), ("uncontr", 45), ("uncontr_end", 45),
    ("uncontracted", 45), ("uncontr_stem", 32), ("pers_name", 8), ("is_group", 110),
    ("prevb_aug", 30), ("prevb_augment", 30), ("double_aug", 61), ("double_augment", 61),
    ("no_comp", 12), ("irreg_comp", 11), ("irrcomp", 11), ("irreg_superl", 10), ("irrsuperl", 10),
    ("short_pen", 13), ("long_pen", 14), ("r_e_i_alpha", 18), ("unaugmented", 21), ("apocope", 24),
    ("has_augment", 26), ("nu_movable", 28), ("interv_s_to_h", 29), ("poetic", 31),
    ("dissimilation", 22), ("metath", 33), ("metathesis", 33), ("elide_preverb", 34),
    ("root_preverb", 36), ("diminutive", 37), ("early", 41), ("late", 38), ("rare", 39),
    ("raw_preverb", 40), ("short_subj", 42), ("unasp_preverb", 43), ("redupl", 44),
    ("attic_redupl", 47), ("is_deriv", 46), ("no_redupl", 48), ("n_infix", 49), ("syncope", 50),
    ("impersonal", 51), ("indeclform", 35), ("needs_rbreath", 52), ("no_circumflex", 53),
    ("causal", 54), ("intrans", 55), ("tmesis", 56), ("raw_sonant", 57), ("prodelision", 58),
    ("frequentat", 59), ("frequentative", 59), ("desiderative", 63), ("impers", 51), ("later", 60),
    ("double_redupl", 62), ("pres_redupl", 64), ("ends_in_dig", 65), ("ends_in_digamma", 65),
    ("geog_name", 66), ("doubled_cons", 67), ("iota_intens", 68), ("sig_to_ci", 70),
    ("short_eis", 71), ("pros_to_poti", 72), ("pros_to_proti", 74), ("meta_to_peda", 73),
    ("upo_to_upai", 75), ("para_to_parai", 76), ("uper_to_upeir", 77), ("en_to_eni", 78),
    ("a_priv", 79), ("a_copul", 80), ("metrical_long", 81)]

/-- `arg_gender` -/
def argGender : List MorphArgs :=
  namedArgs .gender [("masc", 1), ("masculine", 1), ("fem", 2), ("feminine", 2), ("neut", 4),
    ("neuter", 4), ("masc/neut", 5), ("masc/fem", 3), ("masc/fem/neut", 7), ("common", 7),
    ("adverbial", 8)]

/-- `arg_case` -/
def argCase : List MorphArgs :=
  namedArgs .case_ [("nom/voc", 17), ("nom/acc", 9), ("nom/voc/acc", 25), ("gen/dat", 6),
    ("nom", 1), ("nominative", 1), ("gen", 2), ("genitive", 2), ("abl/dat", 36), ("dat/abl", 36),
    ("ablative/dative", 36), ("dative/ablative", 36), ("abl", 32), ("ablative", 32), ("dat", 4),
    ("dative", 4), ("acc", 8), ("accusative", 8), ("voc", 16), ("voctive", 16)]

/-- `arg_number` -/
def argNumber : List MorphArgs :=
  namedArgs .number [("sg", 1), ("sing", 1), ("singular", 1), ("pl", 4), ("plural", 4), ("dual", 2)]

/-- `arg_tense` -/
def argTense : List MorphArgs :=
  namedArgs .tense [("pres", 1), ("present", 1), ("fut", 3), ("future", 3), ("aor", 12),
    ("aorist", 12), ("perf", 5), ("perfect", 5), ("imperf", 10), ("imperfect", 10), ("plup", 6),
    ("pluperfect", 6), ("futperf", 15), ("futperfect", 15), ("pastabs", 8), ("pastabsolute", 8)]

/-- `arg_voice` -/
def argVoice : List MorphArgs :=
  namedArgs .voice [("mid", 2), ("middle", 2), ("act", 1), ("active", 1), ("pass", 4),
    ("passive", 4), ("dep", 3), ("mp", 6), ("medio_pass", 6), ("medio-pass", 6)]

/-- `arg_mood` -/
def argMood : List MorphArgs :=
  namedArgs .mood [("ind", 1), ("indic", 1), ("indicative", 1), ("subj", 2), ("subjunc", 2),
    ("subjunctive", 2), ("part", 6), ("partic", 6), ("participle", 6), ("opt", 3), ("optat", 3),
    ("optative", 3), ("imperat", 4), ("imperative", 4), ("inf", 5), ("infin", 5), ("infinitive", 5),
    ("gerundive", 7), ("supine", 8), ("cond", 9), ("conditional", 9)]

/-- `arg_dialect` -/
def argDialect : List MorphArgs :=
  namedArgs .dialect [("attic", 0o2), ("att", 0o2), ("epic", 0o2100), ("homeric", 0o100),
    ("non_homeric_epic", 0o2000), ("doric", 0o200), ("ionic", 0o10), ("aeolic", 0o20),
    ("parad_form", 0o400), ("all_dial", 0), ("ionic/homeric", 0o110), ("prose", 0o4000)]

/-- `arg_geogregion` -/
def argGeogregion : List MorphArgs :=
  namedArgs .region [("phocis", 0o1), ("locris", 0o2), ("elis", 0o4), ("locris", 0o2),
    ("laconia", 0o20), ("heraclea", 0o40), ("megarid", 0o100), ("argolid", 0o200),
    ("rhodes", 0o400), ("cos", 0o1000), ("thera", 0o2000), ("cyrene", 0o4000), ("crete", 0o10000),
    ("arcadia", 0o20000), ("cyprus", 0o40000), ("boeotia", 0o100000)]

/-- The tables of stem types, derivation types and domains that `init_stems` loads. -/
structure KeyTables where
  stemtypes : List (Bytes × UInt32)
  derivtypes : List (Bytes × UInt32)
  domains : List (Bytes × UInt32)
  isKey : ∀ row ∈ stemtypes ++ derivtypes ++ domains, IsKeyWord row.1 ∧ NulFree row.1

section Tables
variable (tables : KeyTables)

/-- `arg_stemtype` -/
def KeyTables.argStemtype : List MorphArgs := keyArgs .stemtype tables.stemtypes

/-- `arg_derivtype` -/
def KeyTables.argDerivtype : List MorphArgs := keyArgs .derivtype tables.derivtypes

/-- `arg_domain` -/
def KeyTables.argDomain : List MorphArgs := keyArgs .domain tables.domains

/-- The tables of the header in the order of `morph_key_definition_order`. -/
def headerArgs : List MorphArgs :=
  argDegree ++ argPerson ++ argGender ++ argCase ++ argNumber ++ argTense ++ argVoice ++ argMood ++
    argDialect ++ argGeogregion ++ argMorphflags

/-- All rows in the order of `morph_key_definition_order`. -/
def KeyTables.definitions : List MorphArgs :=
  tables.argStemtype ++ tables.argDerivtype ++ tables.argDomain ++ headerArgs

/-- `keycomp1` of two rows with their places in the definition order. -/
def keycomp1 (k1 k2 : MorphArgs × ℕ) : ℤ :=
  Comparison.firstOrder [strcmp k1.1.morphKey k2.1.morphKey, (k1.2 : ℤ) - k2.2]

/-- `key_table` -/
def KeyTables.keyTable : List MorphArgs :=
  (Comparison.sortBy keycomp1 tables.definitions.zipIdx).map Prod.fst

/-- `keycomp2` with row `i`. -/
def keycomp2 (field : Bytes) (i : ℕ) : ℤ :=
  ((tables.keyTable[i]?).map fun mp => strcmp field mp.morphKey).getD (-1)

/-- `MatchMorphKey`: the last of the rows that have the name. -/
def matchMorphKey (field : Bytes) : Option MorphArgs :=
  (binlook (keycomp2 tables field) tables.keyTable.length true).bind fun rval =>
    ((tables.keyTable.drop rval).takeWhile fun mp => strcmp field mp.morphKey == 0).getLast?

end Tables

/-- What `ScanAsciiKeys` works on; `avoiding` behind a key `not`. -/
structure KeyReading where
  gkword : GkWord
  oddkeys : Bytes
  want : GkString
  avoid : Option GkString
  avoiding : Bool

namespace KeyReading
variable (scan : KeyReading)

/-- `gstr` -/
def gstr : GkString := if scan.avoiding then scan.avoid.getD .zero else scan.want

def update (f : GkString → GkString) : KeyReading :=
  if scan.avoiding then { scan with avoid := scan.avoid.map f }
  else { scan with want := f scan.want }

/-- A preverb, with `HAS_PREVERB` or `ROOT_PREVERB` for the other. -/
def setPreverb (preverb : Bytes) (added zapped : ℕ) : KeyReading :=
  let scan := { scan with
    gkword := { scan.gkword with
      preverb := { scan.gkword.preverb with gkstring := xstrncpy preverb maxWordSize } } }
  scan.update fun gstr =>
    { gstr with morphflags := addMorphflag (zapMorphflag gstr.morphflags zapped) added }

def setCrasis (crasis : Bytes) : KeyReading :=
  { scan with gkword := { scan.gkword with crasis := xstrncpy crasis maxWordSize } }

def setEndstring (ending : Bytes) : KeyReading :=
  { scan with
    gkword := { scan.gkword with
      endstring := { scan.gkword.endstring with gkstring := xstrncpy ending maxWordSize } } }

def setLemma (text : Bytes) : KeyReading :=
  { scan with gkword := { scan.gkword with stLemma := xstrncpy text maxWordSize } }

/-- A key that is nothing else goes to the odd keys, if there is room. -/
def addOdd (curkey : Bytes) : KeyReading :=
  let spaced := if scan.oddkeys = [] then scan.oddkeys
    else (appendText scan.oddkeys longString [32]).getD scan.oddkeys
  { scan with oddkeys := (appendText spaced longString curkey).getD spaced }

end KeyReading

/-- `GetGkFlag` -/
def getGkFlag (tables : KeyTables) (field : Bytes) (scan : KeyReading) : Option KeyReading :=
  match matchMorphKey tables field with
  | some mp => some (scan.update mp.add)
  | none =>
    if field.take 4 = ascii "end:" then some (scan.setEndstring (field.drop 4))
    else if field.take 3 = ascii "pb:" then
      some (scan.setPreverb (field.drop 3) hasPreverb rootPreverb)
    else if field.take 4 = ascii "rpb:" then
      some (scan.setPreverb (field.drop 4) rootPreverb hasPreverb)
    else if field.take 3 = ascii "le:" then some (scan.setLemma (field.drop 3))
    else none

/-- What comes of a key: the end of the loop, or the scan and whether the next key is used up. -/
inductive KeyTurn
  | stop
  | next (scan : KeyReading) (used : Bool)

/-- One turn of the loop of `ScanAsciiKeys`, with the key behind the present one. -/
def keyTurn (tables : KeyTables) (scan : KeyReading) (curkey following : Bytes) : KeyTurn :=
  if curkey = ascii "not" then
    if scan.avoid.isSome then .next { scan with avoiding := true } false else .stop
  else if curkey = ascii "crasis" then .next (scan.setCrasis following) true
  else if curkey = ascii "pb" then .next (scan.setPreverb following hasPreverb rootPreverb) true
  else if curkey = ascii "rpb" then .next (scan.setPreverb following rootPreverb hasPreverb) true
  else .next ((getGkFlag tables curkey scan).getD (scan.addOdd curkey)) false

/-- The loop of `ScanAsciiKeys` over the words of the list; `used` for a word that the key in
front of it has taken. -/
def scanWords (tables : KeyTables) : List Bytes → Bool → KeyReading → KeyReading
  | [], _, scan => scan
  | _ :: words, true, scan => scanWords tables words false scan
  | curkey :: words, false, scan =>
    match keyTurn tables scan curkey (words.headD []) with
    | .stop => scan
    | .next scan used => scanWords tables words used scan

/-- `init_prvb_tab` -/
def isPrvbMorphflag (mnum : ℕ) : Bool := [22, 30, 34, 36, 40, 43, 24, 67].contains mnum

/-- `xfer_prvbflags` -/
def xferPrvbflags (wordMf prvbMf : MorphFlags) : MorphFlags × MorphFlags :=
  (List.range 112).foldl (fun mf k =>
    if isPrvbMorphflag (k + 1) && hasMorphflag mf.1 (k + 1) then
      (zapMorphflag mf.1 (k + 1), addMorphflag mf.2 (k + 1))
    else mf) (wordMf, prvbMf)

/-- `ScanAsciiKeys` notes a preverb in the flags of the word, of its stem and of the record. -/
def notePreverb (scan : KeyReading) : KeyReading :=
  if scan.gkword.preverb.gkstring = [] then scan
  else
    let stem := scan.gkword.stem
    if hasMorphflag scan.gstr.morphflags rootPreverb then
      let word := { scan.gkword with
        morphflags := zapMorphflag (addMorphflag scan.gkword.morphflags rootPreverb) hasPreverb
        stem := { stem with
          morphflags := zapMorphflag (addMorphflag stem.morphflags rootPreverb) hasPreverb } }
      { scan with gkword := word }.update fun gstr =>
        { gstr with morphflags := zapMorphflag gstr.morphflags hasPreverb }
    else
      let word := { scan.gkword with
        morphflags := addMorphflag (zapMorphflag scan.gkword.morphflags rootPreverb) hasPreverb
        stem := { stem with
          morphflags := addMorphflag (zapMorphflag stem.morphflags rootPreverb) hasPreverb } }
      { scan with gkword := word }

/-- `RearrangeMorphflags` -/
def rearrangeMorphflags (scan : KeyReading) : KeyReading :=
  let word := xferPrvbflags scan.gkword.morphflags scan.gkword.preverb.morphflags
  let want := xferPrvbflags scan.want.morphflags word.2
  { scan with
    gkword := { scan.gkword with
      morphflags := word.1
      preverb := { scan.gkword.preverb with morphflags := want.2 } }
    want := { scan.want with morphflags := want.1 } }

/-- `ScanAsciiKeys`, without its answer whether there is a stem type. -/
def scanAsciiKeys (tables : KeyTables) (s : Bytes) (gkword : GkWord) (want : GkString)
    (avoid : Option GkString) : KeyReading :=
  rearrangeMorphflags (notePreverb (scanWords tables (keyWords (xstrncpy s longString)) false
    ⟨gkword, [], want, avoid, false⟩))

end Morpheus
