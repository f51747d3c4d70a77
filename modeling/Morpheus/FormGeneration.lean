import Morpheus.DictionaryFrame
import Morpheus.FormSpelling
import Morpheus.MorphKeys

/-!
# Generating the forms of a stem

`chckendings` looks for the endings that go with the keys of a stem, in the ending table of its stem
type, and `GenStemForms` joins the stem with them.
-/
namespace Morpheus

section Stems

/-- The byte that `markstem` takes for the last letter of a stem. -/
def lastLetter (stemstr : Bytes) : Byte := (stemstr.tail.reverse.find? isAlpha).getD (stemstr.headD 0)

/-- `Is_dblcons` -/
def isDblcons (c : Byte) : Bool := c == 99 || c == 121 || c == 122

/-- `longbyposition`, for a place that is there -/
def longbyposition (s : Bytes) : ℕ :=
  let s := s.dropWhile fun c => isVowel c || !isAlpha c
  let c := s.headD 0
  let d := s.tail.headD 0
  if s = [] then 0
  else if isDblcons c then 1
  else if !isCons d then 0
  else if isStop c ∧ isLiquid d then 2
  else if isCons c then 1
  else 0

/-- `ends_in` -/
def endsInString (s1 s2 : Bytes) : Bool :=
  let plain := fun s : Bytes => s.filter fun c => !isAccent c && c != 43
  (plain s2).isSuffixOf (plain s1)

/-- What `markstem` notes of the quantity of the last syllable of a stem. -/
def markQuantity (stemstr : Bytes) (gstr : GkString) : GkString :=
  match getquantity stemstr 0 false false with
  | none => gstr
  | some quant =>
    let position := ((getsyll stemstr 0).map fun p => longbyposition (stemstr.drop p)).getD 0
    let isLong := quant = .long ∨ position ≠ 0 ∨ endsInString stemstr (ascii "hi")
    { gstr with morphflags := addMorphflag gstr.morphflags (if isLong then longPen else shortPen) }

/-- `markstem` -/
def markstem (stemstr : Bytes) (gstr : GkString) : GkString :=
  let lastp := lastLetter stemstr
  let gstr :=
    if (gstr.stemtype &&& nounStem ≠ 0 ∨ gstr.stemtype &&& adjStem ≠ 0 ∨
          gstr.forminfo.mood = participle ∨ hasMorphflag gstr.morphflags isDeriv) ∧
        (lastp = 114 ∨ lastp = 105 ∨ lastp = 101) ∧ !hasMorphflag gstr.morphflags endsInDigamma then
      { gstr with morphflags := addMorphflag gstr.morphflags rEIAlpha }
    else gstr
  if gstr.stemtype &&& adjStem ≠ 0 then markQuantity stemstr gstr else gstr

end Stems

/-- `ScanAsciiKeys` into the stem part of the word itself: the two are one record. -/
def scanStemKeys (tables : KeyTables) (s : Bytes) (gkword : GkWord) : GkWord :=
  let read := scanWords tables (keyWords (xstrncpy s longString)) false
    ⟨gkword, [], gkword.stem, none, false⟩
  let noted := notePreverb { read with gkword := { read.gkword with stem := read.want } }
  let done := rearrangeMorphflags { noted with want := noted.gkword.stem }
  { done.gkword with stem := done.want }

/-- What `GenStemForms` works with besides: the key tables and the ending tables. -/
structure FormTables extends FormBuilder where
  keys : KeyTables
  lib : Stemlib

namespace FormTables
variable (tables : FormTables)

/-- The number that a name implies, when none is asked for. -/
def impliedNumber (gstr : GkString) : GkString :=
  if gstr.forminfo.number ≠ 0 then gstr
  else if hasMorphflag gstr.morphflags persName then
    { gstr with forminfo := { gstr.forminfo with number := 1 } }
  else if isGroupName gstr.morphflags then
    { gstr with forminfo := { gstr.forminfo with number := 4 } }
  else gstr

/-- The pattern of `chckendings` from the one that the keys give. -/
def wantEnd (endstr stemstr prevbstr : Bytes) (dial : UInt16) (want : GkString) : GkString :=
  let want := markstem stemstr { want with gkstring := xstrncpy endstr maxWordSize }
  let want := { want with dialect := if dial ≠ 0 then want.dialect ||| dial else 0 }
  let want :=
    if prevbstr ≠ [] then { want with morphflags := addMorphflag want.morphflags hasPreverb } else want
  impliedNumber want

/-- `chckendings`: there may be no endings, and nothing when a comparison leaves its string. -/
def chckendings (endstr restricts stemstr prevbstr : Bytes) (dial : UInt16) :
    Option (Option (List GkString)) :=
  let scan := scanAsciiKeys tables.keys (xstrncpy restricts 8192) .zero .zero (some .zero)
  if scan.want.stemtype = 0 then some none
  else
    match readEndList tables.lib tables.language scan.want.stemtype with
    | none => some none
    | some (endList, lno) =>
      (retrCompEnds tables.language
        ⟨wantEnd endstr stemstr prevbstr dial scan.want, scan.avoid.getD .zero⟩
        (endList.take lno)).map fun ends => if ends = [] then none else some ends

/-- The word as `GenStemForms` makes it from the keys of its stem, if they go with the word. -/
def readStem (gkword : GkWord) (keys : Bytes) : Option GkWord :=
  let tmp := scanStemKeys tables.keys keys gkword
  if longString ≤ keys.length then none
  else if tmp.stem.stemtype = 0 then none
  else if hasMorphflag gkword.morphflags syllAugment && !hasMorphflag tmp.stem.morphflags syllAugment then
    none
  else if gkword.preverb.gkstring ≠ [] ∧ gkword.preverb.gkstring ≠ tmp.preverb.gkstring then none
  else if negativeDialect (andDialect tmp.dialect tmp.stem.dialect) then none
  else some { tmp with stemtype := tmp.stem.stemtype, derivtype := tmp.stem.derivtype }

/-- `GenStemForms`: the forms, if there are any endings and not too many forms, and whether an error
was recorded. -/
def genStemForms (gkword : GkWord) (keys : Bytes) : Option (Option (List GkWord) × Bool) :=
  match tables.readStem gkword keys with
  | none => some (none, decide (longString ≤ keys.length))
  | some tmp =>
    (tables.chckendings tmp.endstring.gkstring keys tmp.stem.gkstring tmp.preverb.gkstring
      tmp.dialect).bind fun
    | none => some (none, false)
    | some ends =>
      tables.addWdEndings { tmp with stemtype := (ends.headD .zero).stemtype } ends
        (List.replicate (maxFormVariants + 1) .zero) (2 * ends.length + 2)

end FormTables

section Retrieved
variable {language : ℤ} {wantend haveend : GkString} {writeflag strict : Bool} {s : Bytes}

/-- The tests write into fields of an ending, not into its string. -/
def KeepsString (s : Bytes) (tested : Tested) : Prop :=
  ∀ haveend, tested = .ok haveend ∨ tested = .error haveend → haveend.gkstring = s

theorem keepsString_ok (h : haveend.gkstring = s) : KeepsString s (.ok haveend) := by
  rintro _ (h' | h')
  · rwa [← Except.ok.inj h']
  · cases h'

theorem keepsString_error (h : haveend.gkstring = s) : KeepsString s (.error haveend) := by
  rintro _ (h' | h')
  · cases h'
  · rwa [← Except.error.inj h']

theorem KeepsString.failIf (failed : Bool) (h : haveend.gkstring = s) : KeepsString s (failIf failed haveend) := by
  unfold Morpheus.failIf
  split
  · exact keepsString_error h
  · exact keepsString_ok h

theorem KeepsString.bind {tested : Tested} {f : GkString → Tested} (h : KeepsString s tested)
    (hf : ∀ haveend, haveend.gkstring = s → KeepsString s (f haveend)) : KeepsString s (tested >>= f) := by
  cases tested with
  | ok haveend => exact hf haveend (h haveend (.inl rfl))
  | error haveend => exact keepsString_error (h haveend (.inr rfl))

theorem keepsString_testForm (h : haveend.gkstring = s) :
    KeepsString s (testForm language wantend haveend writeflag strict) := by
  unfold testForm
  dsimp only
  refine (KeepsString.failIf _ h).bind fun haveend h => ?_
  refine KeepsString.bind ?_ fun haveend h => ?_
  · unfold testVoice
    dsimp only
    split_ifs <;> first | exact KeepsString.failIf _ h | exact keepsString_ok h
  refine (KeepsString.failIf _ h).bind fun haveend h => ?_
  refine KeepsString.bind ?_ fun haveend h => ?_
  · unfold testGender
    dsimp only
    split_ifs <;> first | exact keepsString_error h | exact keepsString_ok h
  refine KeepsString.bind ?_ fun haveend h => ?_
  · unfold testCase
    dsimp only
    split_ifs <;> first | exact keepsString_error h | exact keepsString_ok h
  exact (KeepsString.failIf _ h).bind fun haveend h => KeepsString.failIf _ h

theorem euphEnd_keeps (want have_ : GkString) (strict : Bool) :
    (euphEnd want have_ strict).2.1.stemtype = want.stemtype ∧
      (euphEnd want have_ strict).2.2.gkstring = have_.gkstring := by
  unfold euphEnd
  dsimp only
  split_ifs <;> exact ⟨rfl, rfl⟩

/-- What the tests leave: the stem type of the pattern and the string of the ending. -/
structure KeepsEnding (wantend haveend : GkString) (verdict : Verdict) : Prop where
  stemtype : verdict.wantend.stemtype = wantend.stemtype
  gkstring : verdict.haveend.gkstring = haveend.gkstring

theorem wantRest_keeps : KeepsEnding wantend haveend (wantRest wantend haveend writeflag strict) := by
  obtain ⟨hstemtype, hgkstring⟩ := euphEnd_keeps wantend haveend strict
  unfold wantRest
  dsimp only
  split_ifs <;> exact ⟨hstemtype, hgkstring⟩

theorem wantGkEnd_keeps {verdict : Verdict}
    (h : wantGkEnd language wantend haveend writeflag strict = some verdict) :
    KeepsEnding wantend haveend verdict := by
  have hform := @keepsString_testForm language wantend haveend writeflag strict _ rfl
  unfold wantGkEnd at h
  split at h
  · next tested htested =>
    obtain rfl := Option.some.inj h
    exact ⟨rfl, hform tested (.inr htested)⟩
  · next tested htested =>
    obtain ⟨test, _, rfl⟩ := Option.map_eq_some_iff.mp h
    have hstring := hform tested (.inl htested)
    cases test with
    | past compval => exact ⟨rfl, hstring⟩
    | fails => exact ⟨rfl, hstring⟩
    | passes =>
      have hrest := @wantRest_keeps wantend tested writeflag strict
      exact ⟨hrest.stemtype, hrest.gkstring.trans hstring⟩

theorem noWantGkEnd_keeps {verdict : Verdict} {skipend : GkString}
    (h : noWantGkEnd language skipend haveend strict = some verdict) :
    KeepsEnding skipend haveend verdict := by
  unfold noWantGkEnd at h
  dsimp only at h
  split_ifs at h
  · obtain rfl := Option.some.inj h
    exact ⟨rfl, rfl⟩
  · obtain rfl := Option.some.inj h
    exact ⟨rfl, rfl⟩
  · obtain rfl := Option.some.inj h
    exact ⟨rfl, rfl⟩
  · obtain ⟨want, hwant, rfl⟩ := Option.map_eq_some_iff.mp h
    have hkeeps := wantGkEnd_keeps hwant
    exact ⟨hkeeps.stemtype, hkeeps.gkstring⟩

theorem judge_keeps {patterns : Patterns} {j : Judgement} (h : judge language patterns haveend = some j) :
    j.patterns.wantgkend.stemtype = patterns.wantgkend.stemtype ∧
      j.curGkend.gkstring = haveend.gkstring := by
  obtain ⟨want, hwant, h⟩ := Option.bind_eq_some_iff.mp h
  obtain ⟨avoid, havoid, rfl⟩ := Option.map_eq_some_iff.mp h
  exact ⟨(wantGkEnd_keeps hwant).stemtype,
    (noWantGkEnd_keeps havoid).gkstring.trans (wantGkEnd_keeps hwant).gkstring⟩

/-- What is added for an ending has its string, and the stem type that is asked for. -/
theorem retrievals_strings {patterns : Patterns} {currentList : List GkString}
    {added : List (Option GkString)} (h : retrievals language patterns currentList = some added)
    {e : GkString} (he : some e ∈ added) :
    e.stemtype = patterns.wantgkend.stemtype ∧ ∃ haveend ∈ currentList, e.gkstring = haveend.gkstring := by
  induction currentList generalizing patterns added with
  | nil =>
    obtain rfl := Option.some.inj h
    cases he
  | cons curGkend currentList ih =>
    obtain ⟨j, hj, h⟩ := Option.bind_eq_some_iff.mp h
    obtain ⟨hstemtype, hstring⟩ := judge_keeps hj
    split at h
    · obtain rfl := Option.some.inj h
      simp at he
    · obtain ⟨rest, hrest, rfl⟩ := Option.map_eq_some_iff.mp h
      rcases List.mem_cons.mp he with hadded | he
      · unfold Judgement.added at hadded
        dsimp only at hadded
        split at hadded
        · obtain rfl := Option.some.inj hadded
          split <;> exact ⟨hstemtype, curGkend, List.mem_cons_self, hstring⟩
        · cases hadded
      · obtain ⟨htype, haveend, hmem, heq⟩ := ih hrest he
        exact ⟨htype.trans hstemtype, haveend, List.mem_cons_of_mem _ hmem, heq⟩

theorem retrCompEnds_strings {patterns : Patterns} {currentList ends : List GkString}
    (h : retrCompEnds language patterns currentList = some ends) {e : GkString} (he : e ∈ ends) :
    e.stemtype = patterns.wantgkend.stemtype ∧ ∃ haveend ∈ currentList, e.gkstring = haveend.gkstring := by
  rw [retrCompEnds, retrLoop_eq] at h
  obtain ⟨added, hadded, rfl⟩ := Option.map_eq_some_iff.mp h
  rw [(foldl_addNewEnd_perm _ _).mem_iff, List.append_nil, List.reduceOption_mem_iff] at he
  exact retrievals_strings hadded he

end Retrieved

section Generated
variable {tables : FormTables} {gkword form : GkWord} {keys : Bytes}

/-- A string of the ending table of a stem type. -/
def FormTables.TableEnding (tables : FormTables) (stemtype : UInt32) (text : Bytes) : Prop :=
  ∃ endList lno, readEndList tables.lib tables.language stemtype = some (endList, lno) ∧
    ∃ ending ∈ endList.take lno, ending.gkstring = text

theorem wantEnd_stemtype (endstr stemstr prevbstr : Bytes) (dial : UInt16) (want : GkString) :
    (FormTables.wantEnd endstr stemstr prevbstr dial want).stemtype = want.stemtype := by
  have himplied : ∀ gstr, (FormTables.impliedNumber gstr).stemtype = gstr.stemtype := by
    intro gstr
    unfold FormTables.impliedNumber
    split_ifs <;> rfl
  have hmark : ∀ gstr, (markstem stemstr gstr).stemtype = gstr.stemtype := by
    intro gstr
    have hquantity : ∀ gstr, (markQuantity stemstr gstr).stemtype = gstr.stemtype := by
      intro gstr
      unfold markQuantity
      split <;> rfl
    unfold markstem
    dsimp only
    split_ifs <;> first | exact hquantity _ | rfl
  unfold FormTables.wantEnd
  dsimp only
  rw [himplied]
  split <;> exact hmark _

theorem chckendings_strings {endstr restricts stemstr prevbstr : Bytes} {dial : UInt16}
    {ends : List GkString}
    (h : tables.chckendings endstr restricts stemstr prevbstr dial = some (some ends)) :
    ends ≠ [] ∧ ∃ stemtype, ∀ e ∈ ends, e.stemtype = stemtype ∧ tables.TableEnding stemtype e.gkstring := by
  unfold FormTables.chckendings at h
  dsimp only at h
  generalize scanAsciiKeys tables.keys (xstrncpy restricts 8192) .zero .zero (some .zero) = scan at h
  split at h
  · cases h
  split at h
  · cases h
  · next endList lno hlist =>
    obtain ⟨found, hfound, h⟩ := Option.map_eq_some_iff.mp h
    split at h
    · cases h
    · next hne =>
      obtain rfl := Option.some.inj h
      refine ⟨hne, scan.want.stemtype, fun e he => ?_⟩
      obtain ⟨hstemtype, haveend, hmem, heq⟩ := retrCompEnds_strings hfound he
      rw [wantEnd_stemtype] at hstemtype
      exact ⟨hstemtype, endList, lno, hlist, haveend, hmem, heq.symm⟩

theorem add_gkstring (mp : MorphArgs) (gstr : GkString) : (mp.add gstr).gkstring = gstr.gkstring := by
  unfold MorphArgs.add
  split <;> rfl

/-- What reading keys into the stem leaves as it is: the lemma and the text of the stem. -/
structure KeepsStem (gkword : GkWord) (scan : KeyReading) : Prop where
  stLemma : scan.gkword.stLemma = gkword.stLemma
  gkstring : scan.want.gkstring = gkword.stem.gkstring
  avoid : scan.avoid = none
  avoiding : scan.avoiding = false

theorem KeepsStem.update {scan : KeyReading} (h : KeepsStem gkword scan) {f : GkString → GkString}
    (hf : ∀ gstr, (f gstr).gkstring = gstr.gkstring) : KeepsStem gkword (scan.update f) := by
  unfold KeyReading.update
  rw [h.avoiding, if_neg Bool.false_ne_true]
  exact ⟨h.stLemma, (hf _).trans h.gkstring, h.avoid, rfl⟩

theorem KeepsStem.withWord {scan : KeyReading} (h : KeepsStem gkword scan) {word : GkWord}
    (hword : word.stLemma = scan.gkword.stLemma) : KeepsStem gkword { scan with gkword := word } :=
  ⟨hword.trans h.stLemma, h.gkstring, h.avoid, h.avoiding⟩

theorem KeepsStem.setPreverb {scan : KeyReading} (h : KeepsStem gkword scan) (preverb : Bytes)
    (added zapped : ℕ) : KeepsStem gkword (scan.setPreverb preverb added zapped) := by
  refine KeepsStem.update ?_ fun _ => rfl
  exact h.withWord rfl

/-- Only a key with a colon sets the lemma. -/
theorem KeepsStem.getGkFlag {keys : KeyTables} {scan after : KeyReading} (h : KeepsStem gkword scan)
    {field : Bytes} (hfield : 58 ∉ field) (hflag : getGkFlag keys field scan = some after) :
    KeepsStem gkword after := by
  unfold Morpheus.getGkFlag at hflag
  split at hflag
  · obtain rfl := Option.some.inj hflag
    exact h.update (add_gkstring _)
  split_ifs at hflag with hend hpb hrpb hle
  · obtain rfl := Option.some.inj hflag
    exact h.withWord rfl
  · obtain rfl := Option.some.inj hflag
    exact h.setPreverb _ _ _
  · obtain rfl := Option.some.inj hflag
    exact h.setPreverb _ _ _
  · exfalso
    apply hfield
    apply List.mem_of_mem_take (i := 3)
    rw [hle]
    decide

theorem KeepsStem.scanWords {keys : KeyTables} {scan : KeyReading} (h : KeepsStem gkword scan)
    {words : List Bytes} (hwords : ∀ word ∈ words, 58 ∉ word) (used : Bool) :
    KeepsStem gkword (scanWords keys words used scan) := by
  induction words generalizing scan used with
  | nil => exact h
  | cons curkey words ih =>
    rw [List.forall_mem_cons] at hwords
    cases used with
    | true => exact ih h hwords.2 false
    | false =>
      rw [Morpheus.scanWords]
      split
      · exact h
      · next next used hturn =>
        refine ih ?_ hwords.2 used
        unfold keyTurn at hturn
        split at hturn
        · rw [h.avoid] at hturn
          cases hturn
        split at hturn
        · obtain ⟨rfl, -⟩ := KeyTurn.next.inj hturn
          exact h.withWord rfl
        split at hturn
        · obtain ⟨rfl, -⟩ := KeyTurn.next.inj hturn
          exact h.setPreverb _ _ _
        split at hturn
        · obtain ⟨rfl, -⟩ := KeyTurn.next.inj hturn
          exact h.setPreverb _ _ _
        · obtain ⟨rfl, -⟩ := KeyTurn.next.inj hturn
          cases hflag : Morpheus.getGkFlag keys curkey scan with
          | some after => exact h.getGkFlag hwords.1 hflag
          | none => exact ⟨h.stLemma, h.gkstring, h.avoid, h.avoiding⟩

theorem scanStemKeys_keeps (keys : KeyTables) {s : Bytes} (hs : 58 ∉ s) (gkword : GkWord) :
    (scanStemKeys keys s gkword).stLemma = gkword.stLemma ∧
      (scanStemKeys keys s gkword).stem.gkstring = gkword.stem.gkstring := by
  have hwords : ∀ word ∈ keyWords (xstrncpy s longString), 58 ∉ word := by
    intro word hword hcolon
    apply hs
    exact List.mem_of_mem_take ((keyWords_within _ _ le_rfl hword).2.subset hcolon)
  have hstart : KeepsStem gkword ⟨gkword, [], gkword.stem, none, false⟩ := ⟨rfl, rfl, rfl, rfl⟩
  have hread := @KeepsStem.scanWords gkword keys _ hstart _ hwords false
  have hnote : ∀ scan : KeyReading, (notePreverb scan).gkword.stLemma = scan.gkword.stLemma ∧
      (notePreverb scan).gkword.stem.gkstring = scan.gkword.stem.gkstring := by
    intro scan
    unfold notePreverb KeyReading.update
    dsimp only
    split_ifs <;> exact ⟨rfl, rfl⟩
  unfold scanStemKeys
  exact ⟨(hnote _).1.trans hread.stLemma, (hnote _).2.trans hread.gkstring⟩

/-- The forms of a stem are built from it and from endings of the table of its stem type. -/
theorem genStemForms_built {forms : List GkWord} {failed : Bool} (hkeys : 58 ∉ keys)
    (hends : ∀ stemtype text, tables.TableEnding stemtype text →
      EndingFits gkword.stem.gkstring text)
    (h : tables.genStemForms gkword keys = some (some forms, failed)) :
    ∃ tmp : GkWord, tmp.stLemma = gkword.stLemma ∧ tmp.stem.gkstring = gkword.stem.gkstring ∧
      ∀ form ∈ forms, ∃ text, tables.TableEnding tmp.stemtype text ∧ BuiltForm tmp text form := by
  unfold FormTables.genStemForms at h
  split at h
  · cases h
  · next tmp htmp =>
    obtain ⟨hlemma, hstem⟩ : tmp.stLemma = gkword.stLemma ∧
        tmp.stem.gkstring = gkword.stem.gkstring := by
      unfold FormTables.readStem at htmp
      dsimp only at htmp
      split_ifs at htmp
      rw [← Option.some.inj htmp]
      exact scanStemKeys_keeps _ hkeys _
    obtain ⟨ends, hfound, h⟩ := Option.bind_eq_some_iff.mp h
    cases ends with
    | none => cases h
    | some ends =>
      obtain ⟨hne, stemtype, hall⟩ := chckendings_strings hfound
      dsimp only at h
      cases ends with
      | nil => exact absurd rfl hne
      | cons first ends =>
        rw [List.headD_cons, (hall first List.mem_cons_self).1] at h
        refine ⟨{ tmp with stemtype := stemtype }, hlemma, hstem, fun form hform => ?_⟩
        obtain ⟨ending, hending, hbuilt⟩ := addWdEndings_built (fun ending hending => by
          dsimp only
          rw [hstem]
          exact hends _ _ (hall ending hending).2) h form hform
        exact ⟨ending.gkstring, (hall ending hending).2, hbuilt⟩

end Generated

end Morpheus
